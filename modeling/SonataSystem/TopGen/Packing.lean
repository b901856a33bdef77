import SonataSystem.TopGen.Routing
import SonataSystem.TopGen.SinkCall

/-!
# When the selectors are packed

The driver stores a byte at the address of a selector. If selectors are eight bits wide at most
and there are at most as many of a kind as its half of the register space has bytes, then that
selector takes the byte and the others stay. `packs_iff` says that these are the only
conditions, apart from the names that the generated files declare.

A selector has a bit for each choice, and one of them is the constant: seven links are what a byte
can take. A selector of nine bits reaches into the byte of the next one, and its last source
cannot be chosen with a byte.
-/

set_option autoImplicit false

namespace SonataSystem.TopGen

open Lib

/-! ## The sinks that a configuration comes to -/

/-- The link is to an io that is no input. -/
def mayDrive (blockIos : List BlockIoFlat) (link : BlockIoUid) : Bool :=
  match blocksMap blockIos link with
  | some bio => bio.direction != .input
  | none => false

/-- The io has a multiplexer for its pins. -/
def muxed (bio : BlockIoFlat) : Bool :=
  bio.direction == .input || (bio.direction == .inout && bio.combine == some .mux)

/-- The pins that a block may drive. -/
def drivenPins (blockIos : List BlockIoFlat) (pins : List PinFlat) : List PinFlat :=
  pins.filter fun pin => pin.blockIoLinks.any (mayDrive blockIos)

/-- The block ios that have a multiplexer of pins. -/
def muxedIos (blockIos : List BlockIoFlat) (pins : List PinFlat) : List BlockIoFlat :=
  blockIos.filter fun bio => muxed bio && pins.any fun pin => decide (bio.uid ∈ pin.blockIoLinks)

/-- How many links an io has. -/
def numLinks (pins : List PinFlat) (uid : BlockIoUid) : Nat :=
  (pins.map fun pin => pin.blockIoLinks.count uid).sum

section Iterators

variable {blockIos : List BlockIoFlat} {pins : List PinFlat}

theorem flatMap_ite {α β : Type*} (p : α → Bool) (f : α → β) (l : List α) :
    (l.flatMap fun x => if p x then [f x] else []) = (l.filter p).map f := by
  induction l with
  | nil => rfl
  | cons x l ih =>
    rw [List.flatMap_cons, ih]
    by_cases hx : p x = true
    · rw [if_pos hx, List.filter_cons_of_pos hx, List.map_cons, List.singleton_append]
    · rw [if_neg hx, List.filter_cons_of_neg hx, List.nil_append]

/-- The ios that may drive a pin, in the order of its links. -/
def blockOutputs (blockIos : List BlockIoFlat) (pin : PinFlat) : List BlockIoFlat :=
  pin.blockIoLinks.filterMap fun link =>
    (blocksMap blockIos link).filter fun bio => bio.direction != .input

theorem filter_of_mapM {links : List BlockIoUid} {linked : List BlockIoFlat}
    (h : links.mapM (getItem (blocksMap blockIos)) = .ok linked) :
    linked.filter (fun bio => bio.direction != .input) =
      links.filterMap fun link =>
        (blocksMap blockIos link).filter fun bio => bio.direction != .input := by
  have hall := mapM_eq_ok.mp h
  clear h
  induction hall with
  | nil => rfl
  | @cons link bio _ _ hb _ ih =>
    have hget := getItem_eq_ok.mp hb
    by_cases hdir : (bio.direction != .input) = true
    · rw [List.filter_cons, if_pos hdir, ih]
      simp [hget, Option.filter_some, hdir]
    · rw [List.filter_cons, if_neg hdir, ih]
      simp [hget, Option.filter_some, hdir]

theorem length_blockOutputs (pin : PinFlat) :
    (blockOutputs blockIos pin).length = pin.blockIoLinks.countP (mayDrive blockIos) := by
  rw [blockOutputs, List.length_filterMap_eq_countP]
  congr 1
  funext link
  unfold mayDrive
  cases blocksMap blockIos link with
  | none => rfl
  | some bio => 
    cases hdir : bio.direction with
    | inout => simp [hdir]
    | input => simp [hdir]
    | output => simp [hdir]

theorem outputPins_eq {outputPins : List OutputPin}
    (h : outputPinsIter pins blockIos = .ok outputPins) :
    outputPins = (drivenPins blockIos pins).map fun pin =>
      ⟨pin, blockOutputs blockIos pin, pin.blockIoLinks.countP (mayDrive blockIos) + 1⟩ := by
  obtain ⟨rows, hrows, h⟩ := bind_eq_ok.mp h
  cases h
  rw [drivenPins, ← flatMap_ite]
  refine flatten_of_mapM hrows fun pin _ row hrow => ?_
  obtain ⟨linked, hlinked, hrow⟩ := bind_eq_ok.mp hrow
  have hfilter : linked.filter (fun bio => bio.direction != .input) = blockOutputs blockIos pin :=
    filter_of_mapM hlinked
  simp only [hfilter, length_blockOutputs] at hrow
  by_cases hany : pin.blockIoLinks.any (mayDrive blockIos) = true
  · have hpos : 0 < pin.blockIoLinks.countP (mayDrive blockIos) :=
      List.countP_pos_iff.mpr (List.any_eq_true.mp hany)
    rw [if_pos hpos] at hrow
    cases hrow
    rw [if_pos hany]
  · have hzero : ¬ 0 < pin.blockIoLinks.countP (mayDrive blockIos) := fun hpos =>
      hany (List.any_eq_true.mpr (List.countP_pos_iff.mp hpos))
    rw [if_neg hzero] at hrow
    cases hrow
    rw [if_neg hany]

theorem length_pinsLinking (uid : BlockIoUid) :
    (pinsLinking pins uid).length = numLinks pins uid := by
  simp [pinsLinking, numLinks, List.length_flatMap]

theorem any_link_iff {uid : BlockIoUid} :
    (pins.any fun pin => decide (uid ∈ pin.blockIoLinks)) = true ↔ 0 < numLinks pins uid := by
  rw [← length_pinsLinking, List.any_eq_true, List.length_pos_iff_exists_mem]
  constructor
  · rintro ⟨pin, hpin, hmem⟩
    exact ⟨pin, mem_pinsLinking.mpr ⟨hpin, List.count_pos_iff.mpr (of_decide_eq_true hmem)⟩⟩
  · rintro ⟨pin, hpin⟩
    obtain ⟨hpin, hcount⟩ := mem_pinsLinking.mp hpin
    exact ⟨pin, hpin, decide_eq_true (List.count_pos_iff.mp hcount)⟩

theorem muxed_iff {bio : BlockIoFlat} :
    muxed bio = true ↔
      ¬ (bio.direction ≠ .input ∧ (bio.direction ≠ .inout ∨ bio.combine ≠ some .mux)) := by
  simp only [muxed, Bool.or_eq_true, Bool.and_eq_true, beq_iff_eq, not_and_or, not_or,
    Decidable.not_not]

theorem outputBlockIos_eq {blockIoToPins : BlockIoToPinsMap} {outputBlockIos : List OutputBlockIo}
    (hmap : blockIoToPinMap blockIos pins = .ok blockIoToPins)
    (h : outputBlockIosIter blockIos blockIoToPins = .ok outputBlockIos) :
    outputBlockIos = (muxedIos blockIos pins).map fun bio =>
      ⟨bio, pinsLinking pins bio.uid, max ((pinsLinking pins bio.uid).length + 1) 2⟩ := by
  obtain ⟨rows, hrows, h⟩ := bind_eq_ok.mp h
  cases h
  rw [muxedIos, ← flatMap_ite]
  refine flatten_of_mapM hrows fun bio _ row hrow => ?_
  by_cases hmuxed : muxed bio = true
  · rw [if_neg (muxed_iff.mp hmuxed)] at hrow
    obtain ⟨ps, hps, hrow⟩ := bind_eq_ok.mp hrow
    have hlinking := get_blockIoToPinMap hmap (getItem_eq_ok.mp hps)
    subst hlinking
    by_cases hnone : (pinsLinking pins bio.uid).length == 0
    · rw [if_pos hnone] at hrow
      cases hrow
      have hany : ¬ (pins.any fun pin => decide (bio.uid ∈ pin.blockIoLinks)) = true := by
        rw [any_link_iff, ← length_pinsLinking, eq_of_beq hnone]
        exact Nat.lt_irrefl 0
      rw [if_neg]
      rw [Bool.and_eq_true, not_and]
      exact fun _ => hany
    · rw [if_neg hnone] at hrow
      cases hrow
      have hany : (pins.any fun pin => decide (bio.uid ∈ pin.blockIoLinks)) = true := by
        rw [any_link_iff, ← length_pinsLinking]
        exact Nat.pos_of_ne_zero fun h => hnone (beq_iff_eq.mpr h)
      rw [if_pos]
      rw [Bool.and_eq_true]
      exact ⟨hmuxed, hany⟩
  · have hskip := fun h => hmuxed (muxed_iff.mpr h)
    rw [if_pos (Decidable.not_not.mp hskip)] at hrow
    cases hrow
    simp [hmuxed]

end Iterators

/-! ## When the selectors are packed -/

/-- A call of the driver that is accepted selects its source at the sink, and nothing else at
the other sinks. -/
def Selects (k : SinkOf) (sinks : List SinkOf) : Prop :=
  ∀ op, k.accepts op = true → ∀ rest beyond s, ∃ s', k.call op rest beyond s = some s' ∧
    (s' k.selector).toNat = 2 ^ op.source ∧
    ∀ k' ∈ sinks, k'.selector ≠ k.selector → s' k'.selector = s k'.selector

/-- Each call sets its selector and leaves the others as they are. -/
structure Packs (t : TemplateVariables) : Prop where
  /-- No variable of the hardware is declared twice. -/
  declared : (t.sinks.map fun k => k.selector.name).Nodup
  /-- No enumerator is. -/
  pinEnumerators : ((pinSinks t.outputPins).map SinkOf.enumerator).Nodup
  blockEnumerators : ((blockSinks t.outputBlockIos).map SinkOf.enumerator).Nodup
  assigned : ∀ k ∈ t.sinks, ∃ addr bit, k.selector.Occupies addr bit
  disjoint : t.sinks.Pairwise fun k k' => ∀ addr bit,
    k.selector.Occupies addr bit → ¬ k'.selector.Occupies addr bit
  selects : ∀ k ∈ t.sinks, Selects k t.sinks

/-- At most eight options with the constant, at most 2048 sinks of a kind, and no name for two. -/
structure Fits (blockIos : List BlockIoFlat) (pins : List PinFlat) : Prop where
  pinOptions : ∀ pin ∈ pins, pin.blockIoLinks.countP (mayDrive blockIos) ≤ 7
  blockOptions : ∀ bio ∈ blockIos, muxed bio = true → numLinks pins bio.uid ≤ 7
  pinSinks : (drivenPins blockIos pins).length ≤ 2048
  blockSinks : (muxedIos blockIos pins).length ≤ 2048
  names : ((drivenPins blockIos pins).map PinFlat.name ++
    (muxedIos blockIos pins).map BlockIoFlat.name).Nodup
  docNames : ((muxedIos blockIos pins).map BlockIoFlat.docName).Nodup

/-- The entries of a half: pins or block ios. -/
def TemplateVariables.entries (t : TemplateVariables) (bank : Bool) : List SinkEntry :=
  if bank then t.outputBlockIos.map OutputBlockIo.entry else t.outputPins.map OutputPin.entry

section Packs

variable {entries : List SinkEntry} {ents : Bool → List SinkEntry} {bank : Bool} {k : SinkOf}

/-- The sinks of both halves. -/
def allSinks (ents : Bool → List SinkEntry) : List SinkOf :=
  sinksOf false (ents false) ++ sinksOf true (ents true)

theorem TemplateVariables.sinks_eq (t : TemplateVariables) : t.sinks = allSinks t.entries := by
  rw [TemplateVariables.sinks, pinSinks_eq, blockSinks_eq]
  rfl

theorem mem_allSinks :
    k ∈ allSinks ents ↔
      ∃ bank idx e, (ents bank)[idx]? = some e ∧ k = sinkAt bank (ents bank) idx e := by
  rw [allSinks, List.mem_append, mem_sinksOf, mem_sinksOf, Bool.exists_bool]

/-- The condition on the sinks of one kind. -/
structure Small (entries : List SinkEntry) : Prop where
  atLeast : ∀ e ∈ entries, 2 ≤ e.numOptions
  atMost : ∀ e ∈ entries, e.numOptions ≤ 8
  length : entries.length ≤ 2048
  enumerators : (entries.map SinkEntry.enumerator).Nodup

theorem occupies_packed {name : String} {idx numOptions reset : Nat} {addr : BitVec 12} {bit : Nat}
    (hmax : numOptions ≤ 8) (h : (packed name bank idx numOptions reset).Occupies addr bit) :
    addr.getLsbD 11 = bank ∧ idx = (addr.extractLsb' 0 11).toNat + bit / 8 := by
  obtain ⟨⟨w, rfl, haddr⟩, hlo, hhi⟩ := h
  simp only [Selector.addressed, packed, Bool.and_eq_true, beq_iff_eq] at haddr hlo hhi
  exact ⟨haddr.1.1, by omega⟩

theorem exists_occupies {name : String} {idx numOptions reset : Nat} (hidx : idx < 2048)
    (hpos : 0 < numOptions) :
    ∃ addr bit, (packed name bank idx numOptions reset).Occupies addr bit :=
  ⟨_, idx % 4 * 8, ⟨sinkWrite bank idx 0, rfl, (addressed_sinkWrite hidx 0).mpr ⟨rfl, rfl⟩⟩,
    Nat.le_refl _, Nat.lt_add_of_pos_right hpos⟩

theorem pairwise_sinksOf (hmax : ∀ e ∈ entries, e.numOptions ≤ 8) :
    (sinksOf bank entries).Pairwise fun k k' => ∀ addr bit,
      k.selector.Occupies addr bit → ¬ k'.selector.Occupies addr bit := by
  rw [List.pairwise_iff_getElem]
  intro i j hi hj hij addr bit hocc hocc'
  simp only [sinksOf, List.getElem_map, List.getElem_zipIdx, Nat.zero_add] at hocc hocc'
  have hidx := (occupies_packed (hmax _ (List.getElem_mem _)) hocc).2
  have hidx' := (occupies_packed (hmax _ (List.getElem_mem _)) hocc').2
  omega

theorem pairwise_allSinks (h : ∀ bank, Small (ents bank)) :
    (allSinks ents).Pairwise fun k k' => ∀ addr bit,
      k.selector.Occupies addr bit → ¬ k'.selector.Occupies addr bit := by
  rw [allSinks, List.pairwise_append]
  refine ⟨pairwise_sinksOf (h false).atMost, pairwise_sinksOf (h true).atMost, ?_⟩
  intro k hk k' hk' addr bit hocc hocc'
  obtain ⟨idx, e, he, rfl⟩ := mem_sinksOf.mp hk
  obtain ⟨idx', e', he', rfl⟩ := mem_sinksOf.mp hk'
  have hbank := (occupies_packed ((h false).atMost e (List.mem_of_getElem? he)) hocc).1
  have hbank' := (occupies_packed ((h true).atMost e' (List.mem_of_getElem? he')) hocc').1
  rw [hbank] at hbank'
  cases hbank'

theorem selects_of_small (h : ∀ bank, Small (ents bank)) (hk : k ∈ allSinks ents) :
    Selects k (allSinks ents) := by
  obtain ⟨bank, idx, e, he, rfl⟩ := mem_allSinks.mp hk
  have hidx : idx < 2048 :=
    Nat.lt_of_lt_of_le (List.getElem?_eq_some_iff.mp he).1 (h bank).length
  have hmem := List.mem_of_getElem? he
  intro op hacc rest beyond s
  obtain ⟨s', hcall, hsame, hother⟩ := call_sels (h bank).enumerators he hidx
    ((h bank).atLeast e hmem) ((h bank).atMost e hmem) hacc rest beyond s
  refine ⟨s', hcall, hsame, fun k' hk' hne => ?_⟩
  obtain ⟨bank', idx', e', he', rfl⟩ := mem_allSinks.mp hk'
  refine hother _ _ _ _ _ fun hsame => ?_
  cases hsame
  rw [he] at he'
  cases he'
  exact hne rfl

/-- What the sinks of a kind have to be like for their driver to reach them. -/
theorem small_of_selects (hmin : ∀ e ∈ ents bank, 2 ≤ e.numOptions)
    (hnames : ((ents bank).map SinkEntry.enumerator).Nodup)
    (h : ∀ k ∈ allSinks ents, Selects k (allSinks ents)) : Small (ents bank) := by
  have hreach : ∀ idx e, (ents bank)[idx]? = some e → idx < 2048 ∧ e.numOptions ≤ 8 := by
    intro idx e he
    have hdisable : ∀ rest beyond s, ∃ s',
        (sinkAt bank (ents bank) idx e).call .disable rest beyond s = some s' ∧
          (s' (packed e.name bank idx e.numOptions e.reset)).toNat = 2 ^ 0 := by
      intro rest beyond s
      obtain ⟨s', hcall, hs', -⟩ := h _ (mem_allSinks.mpr ⟨bank, idx, e, he, rfl⟩) .disable rfl
        rest beyond s
      exact ⟨s', hcall, hs'⟩
    exact le_of_disable hnames he hdisable
  refine ⟨hmin, fun e he => ?_, ?_, hnames⟩
  · obtain ⟨idx, hidx⟩ := List.mem_iff_getElem?.mp he
    exact (hreach idx e hidx).2
  · by_contra hlong
    rw [Nat.not_le] at hlong
    exact absurd (hreach 2048 _ (List.getElem?_eq_getElem hlong)).1 (Nat.lt_irrefl _)

theorem map_enumerator_sinksOf :
    (sinksOf bank entries).map SinkOf.enumerator = entries.map SinkEntry.enumerator := by
  apply List.ext_getElem?
  intro i
  simp [sinksOf, List.getElem?_zipIdx]
  cases entries[i]? <;> rfl

variable {config : TopConfig} {t : TemplateVariables}

theorem packs_iff_small (hmin : ∀ bank, ∀ e ∈ t.entries bank, 2 ≤ e.numOptions) :
    Packs t ↔ (t.sinks.map fun k => k.selector.name).Nodup ∧ ∀ bank, Small (t.entries bank) := by
  have hpins : (pinSinks t.outputPins).map SinkOf.enumerator =
      (t.entries false).map SinkEntry.enumerator := by
    rw [pinSinks_eq, map_enumerator_sinksOf]
    rfl
  have hblocks : (blockSinks t.outputBlockIos).map SinkOf.enumerator =
      (t.entries true).map SinkEntry.enumerator := by
    rw [blockSinks_eq, map_enumerator_sinksOf]
    rfl
  -- A sink of either half is in the list, so what is asked of all sinks is asked of each half.
  constructor
  · intro h
    refine ⟨h.declared, fun bank => ?_⟩
    have hnames : ((t.entries bank).map SinkEntry.enumerator).Nodup := by
      cases bank with
      | false => exact hpins ▸ h.pinEnumerators
      | true => exact hblocks ▸ h.blockEnumerators
    exact small_of_selects (hmin bank) hnames (t.sinks_eq ▸ h.selects)
  · rintro ⟨hnames, hsmall⟩
    refine ⟨hnames, hpins ▸ (hsmall false).enumerators, hblocks ▸ (hsmall true).enumerators,
      ?_, ?_, ?_⟩
    · intro k hk
      rw [t.sinks_eq] at hk
      obtain ⟨bank, idx, e, he, rfl⟩ := mem_allSinks.mp hk
      have hidx := (List.getElem?_eq_some_iff.mp he).1
      have htwo := (hsmall bank).atLeast e (List.mem_of_getElem? he)
      exact exists_occupies (Nat.lt_of_lt_of_le hidx (hsmall bank).length)
        (Nat.lt_of_lt_of_le Nat.zero_lt_two htwo)
    · rw [t.sinks_eq]
      exact pairwise_allSinks hsmall
    · rw [t.sinks_eq]
      exact fun k hk => selects_of_small hsmall hk

/-- The sinks are made from the flat configuration. -/
theorem sinks_of_generateTop (ht : generateTop config = .ok t) :
    (t.outputPins = (drivenPins t.blockIos t.pins).map fun pin =>
      ⟨pin, blockOutputs t.blockIos pin, pin.blockIoLinks.countP (mayDrive t.blockIos) + 1⟩) ∧
    t.outputBlockIos = (muxedIos t.blockIos t.pins).map fun bio =>
      ⟨bio, pinsLinking t.pins bio.uid, max ((pinsLinking t.pins bio.uid).length + 1) 2⟩ := by
  obtain ⟨pins, -, ht⟩ := bind_eq_ok.mp ht
  obtain ⟨blockIoToPins, hmap, ht⟩ := bind_eq_ok.mp ht
  obtain ⟨outputPins, houtputs, ht⟩ := bind_eq_ok.mp ht
  obtain ⟨outputBlockIos, hblocks, ht⟩ := bind_eq_ok.mp ht
  obtain ⟨combined, -, ht⟩ := bind_eq_ok.mp ht
  cases ht
  exact ⟨outputPins_eq houtputs, outputBlockIos_eq hmap hblocks⟩

theorem pinEntries_of_generateTop (ht : generateTop config = .ok t) :
    t.entries false = (drivenPins t.blockIos t.pins).map fun pin =>
      ⟨pin.name, pin.name, pin.blockIoLinks.countP (mayDrive t.blockIos) + 1,
        if pin.noDefaultOut then 1 else 2⟩ := by
  show t.outputPins.map OutputPin.entry = _
  rw [(sinks_of_generateTop ht).1, List.map_map]
  rfl

theorem blockEntries_of_generateTop (ht : generateTop config = .ok t) :
    t.entries true = (muxedIos t.blockIos t.pins).map fun bio =>
      ⟨bio.docName, bio.name, max (numLinks t.pins bio.uid + 1) 2, 2⟩ := by
  show t.outputBlockIos.map OutputBlockIo.entry = _
  rw [(sinks_of_generateTop ht).2, List.map_map]
  refine List.map_congr_left fun bio _ => ?_
  rw [← length_pinsLinking]
  rfl

theorem two_le_numOptions (ht : generateTop config = .ok t) (bank : Bool) :
    ∀ e ∈ t.entries bank, 2 ≤ e.numOptions := by
  intro e he
  cases bank with
  | false =>
    rw [pinEntries_of_generateTop ht] at he
    obtain ⟨pin, hpin, rfl⟩ := List.mem_map.mp he
    have hany := List.of_mem_filter hpin
    exact Nat.succ_le_succ (List.countP_pos_iff.mpr (List.any_eq_true.mp hany))
  | true =>
    rw [blockEntries_of_generateTop ht] at he
    obtain ⟨bio, -, rfl⟩ := List.mem_map.mp he
    exact Nat.le_max_right _ _

theorem map_name_sinksOf :
    (sinksOf bank entries).map (fun k => k.selector.name) = entries.map SinkEntry.name := by
  apply List.ext_getElem?
  intro i
  simp [sinksOf, List.getElem?_zipIdx]
  cases entries[i]? <;> rfl

theorem selectorNames (ht : generateTop config = .ok t) :
    t.sinks.map (fun k => k.selector.name) =
      (drivenPins t.blockIos t.pins).map PinFlat.name ++
        (muxedIos t.blockIos t.pins).map BlockIoFlat.name := by
  rw [t.sinks_eq, allSinks, List.map_append, map_name_sinksOf, map_name_sinksOf,
    pinEntries_of_generateTop ht, blockEntries_of_generateTop ht, List.map_map, List.map_map]
  rfl

theorem small_pins_iff (ht : generateTop config = .ok t) :
    Small (t.entries false) ↔
      (∀ pin ∈ t.pins, pin.blockIoLinks.countP (mayDrive t.blockIos) ≤ 7) ∧
      (drivenPins t.blockIos t.pins).length ≤ 2048 ∧
      ((drivenPins t.blockIos t.pins).map PinFlat.name).Nodup := by
  have hmin := two_le_numOptions ht false
  have hentries := pinEntries_of_generateTop ht
  have hnames : (t.entries false).map SinkEntry.enumerator =
      (drivenPins t.blockIos t.pins).map PinFlat.name := by
    rw [hentries, List.map_map]
    rfl
  have hlength : (t.entries false).length = (drivenPins t.blockIos t.pins).length := by
    rw [hentries, List.length_map]
  constructor
  · rintro ⟨-, hmax, hlen, hnodup⟩
    refine ⟨fun pin hpin => ?_, hlength ▸ hlen, hnames ▸ hnodup⟩
    rcases Nat.eq_zero_or_pos (pin.blockIoLinks.countP (mayDrive t.blockIos)) with hzero | hpos
    · rw [hzero]
      exact Nat.zero_le _
    · have hdriven : pin ∈ drivenPins t.blockIos t.pins :=
        List.mem_filter.mpr ⟨hpin, List.any_eq_true.mpr (List.countP_pos_iff.mp hpos)⟩
      have hle := hmax _ (hentries ▸ List.mem_map_of_mem hdriven)
      exact Nat.le_of_succ_le_succ hle
  · rintro ⟨hmax, hlen, hnodup⟩
    refine ⟨hmin, fun e he => ?_, hlength ▸ hlen, hnames ▸ hnodup⟩
    rw [hentries] at he
    obtain ⟨pin, hpin, rfl⟩ := List.mem_map.mp he
    exact Nat.succ_le_succ (hmax pin (List.mem_of_mem_filter hpin))

theorem small_blockIos_iff (ht : generateTop config = .ok t) :
    Small (t.entries true) ↔
      (∀ bio ∈ t.blockIos, muxed bio = true → numLinks t.pins bio.uid ≤ 7) ∧
      (muxedIos t.blockIos t.pins).length ≤ 2048 ∧
      ((muxedIos t.blockIos t.pins).map BlockIoFlat.docName).Nodup := by
  have hmin := two_le_numOptions ht true
  have hentries := blockEntries_of_generateTop ht
  have hnames : (t.entries true).map SinkEntry.enumerator =
      (muxedIos t.blockIos t.pins).map BlockIoFlat.docName := by
    rw [hentries, List.map_map]
    rfl
  have hlength : (t.entries true).length = (muxedIos t.blockIos t.pins).length := by
    rw [hentries, List.length_map]
  constructor
  · rintro ⟨-, hmax, hlen, hnodup⟩
    refine ⟨fun bio hbio hmuxed => ?_, hlength ▸ hlen, hnames ▸ hnodup⟩
    rcases Nat.eq_zero_or_pos (numLinks t.pins bio.uid) with hzero | hpos
    · rw [hzero]
      exact Nat.zero_le _
    · have hmem : bio ∈ muxedIos t.blockIos t.pins := by
        refine List.mem_filter.mpr ⟨hbio, ?_⟩
        rw [Bool.and_eq_true]
        exact ⟨hmuxed, any_link_iff.mpr hpos⟩
      have hle := hmax _ (hentries ▸ List.mem_map_of_mem hmem)
      exact Nat.le_of_succ_le_succ ((Nat.le_max_left _ _).trans hle)
  · rintro ⟨hmax, hlen, hnodup⟩
    refine ⟨hmin, fun e he => ?_, hlength ▸ hlen, hnames ▸ hnodup⟩
    rw [hentries] at he
    obtain ⟨bio, hbio, rfl⟩ := List.mem_map.mp he
    obtain ⟨hbio, hcond⟩ := List.mem_filter.mp hbio
    rw [Bool.and_eq_true] at hcond
    exact Nat.max_le.mpr ⟨Nat.succ_le_succ (hmax bio hbio hcond.1), by decide⟩

theorem fits_of_packs (ht : generateTop config = .ok t) (h : Packs t) : Fits t.blockIos t.pins := by
  obtain ⟨hnames, hsmall⟩ := (packs_iff_small (two_le_numOptions ht)).mp h
  obtain ⟨hpins, hpinSinks, -⟩ := (small_pins_iff ht).mp (hsmall false)
  obtain ⟨hblocks, hblockSinks, hdocNames⟩ := (small_blockIos_iff ht).mp (hsmall true)
  exact ⟨hpins, hblocks, hpinSinks, hblockSinks, selectorNames ht ▸ hnames, hdocNames⟩

theorem packs_of_fits (ht : generateTop config = .ok t) (h : Fits t.blockIos t.pins) : Packs t := by
  refine (packs_iff_small (two_le_numOptions ht)).mpr ⟨selectorNames ht ▸ h.names, fun bank => ?_⟩
  cases bank with
  | false =>
    exact (small_pins_iff ht).mpr ⟨h.pinOptions, h.pinSinks, (List.nodup_append.mp h.names).1⟩
  | true => exact (small_blockIos_iff ht).mpr ⟨h.blockOptions, h.blockSinks, h.docNames⟩

/-! ## Every call of the driver -/

/-- A call of the driver, with what the bus carries beside its byte. -/
structure SinkCall where
  sink : SinkOf
  op : SinkOp
  /-- What else is in the register that is stored from, and past the end of the data. -/
  rest : BitVec 24
  beyond : Sels

/-- A call that is refused changes nothing. -/
def SinkCall.exec (c : SinkCall) (s : Sels) : Sels := (c.sink.call c.op c.rest c.beyond s).getD s

def execAll (calls : List SinkCall) (s : Sels) : Sels := calls.foldl (fun s c => c.exec s) s

/-- Which source is selected, by a call that is accepted. -/
def SinkCall.choose (c : SinkCall) (choice : Selector → Nat) : Selector → Nat :=
  if c.sink.accepts c.op then Function.update choice c.sink.selector c.op.source else choice

def chooseAll (calls : List SinkCall) (choice : Selector → Nat) : Selector → Nat :=
  calls.foldl (fun choice c => c.choose choice) choice

/-- Every selector holds its source one-hot. -/
def Holds (t : TemplateVariables) (s : Sels) (choice : Selector → Nat) : Prop :=
  ∀ k ∈ t.sinks, (s k.selector).toNat = 2 ^ choice k.selector

theorem call_of_not_accepts {k : SinkOf} {op : SinkOp} (h : k.accepts op = false)
    (rest : BitVec 24) (beyond s : Sels) : k.call op rest beyond s = none := by
  have hnone : k.enum.assigns k.enumerator op = none := Option.isNone_iff_eq_none.mp (by
    rwa [SinkOf.accepts, ← Option.not_isNone, Bool.not_eq_false'] at h)
  show (k.enum.assigns k.enumerator op).bind _ = none
  rw [hnone]
  rfl

theorem holds_exec (h : Packs t) {c : SinkCall} (hc : c.sink ∈ t.sinks) {s : Sels}
    {choice : Selector → Nat} (hs : Holds t s choice) : Holds t (c.exec s) (c.choose choice) := by
  intro k hk
  cases hacc : c.sink.accepts c.op with
  | false =>
    rw [SinkCall.exec, call_of_not_accepts hacc, SinkCall.choose, hacc]
    exact hs k hk
  | true =>
    obtain ⟨s', hcall, hsame, hother⟩ := h.selects c.sink hc c.op hacc c.rest c.beyond s
    rw [SinkCall.exec, hcall, SinkCall.choose, if_pos hacc, Option.getD_some]
    by_cases hsel : k.selector = c.sink.selector
    · rw [hsel, Function.update_self]
      exact hsame
    · rw [hother k hk hsel, Function.update_of_ne hsel]
      exact hs k hk

/-- Over any calls the selectors are what the last call for each has selected. -/
theorem holds_execAll (h : Packs t) {calls : List SinkCall} (hcalls : ∀ c ∈ calls, c.sink ∈ t.sinks)
    {s : Sels} {choice : Selector → Nat} (hs : Holds t s choice) :
    Holds t (execAll calls s) (chooseAll calls choice) := by
  induction calls generalizing s choice with
  | nil => exact hs
  | cons c calls ih =>
    have hc := holds_exec h (hcalls c List.mem_cons_self) hs
    exact ih (fun c' hc' => hcalls c' (List.mem_cons_of_mem _ hc')) hc

/-- The source after a reset. -/
def Selector.default (r : Selector) : Nat := if r.reset = 1 then 0 else 1

theorem holds_reset (ht : generateTop config = .ok t) : Holds t resetSels Selector.default := by
  intro k hk
  rw [t.sinks_eq] at hk
  obtain ⟨bank, idx, e, he, rfl⟩ := mem_allSinks.mp hk
  have hmem := List.mem_of_getElem? he
  have hmin := two_le_numOptions ht bank e hmem
  have hlarge : 2 < 2 ^ e.numOptions :=
    Nat.lt_of_lt_of_le (by decide : 2 < 2 ^ 2) (Nat.pow_le_pow_right (by decide) hmin)
  have hreset : e.reset = 1 ∨ e.reset = 2 := by
    cases bank with
    | false =>
      rw [pinEntries_of_generateTop ht] at hmem
      obtain ⟨pin, -, rfl⟩ := List.mem_map.mp hmem
      cases hdef : pin.noDefaultOut with
      | false => exact .inr rfl
      | true => exact .inl rfl
    | true =>
      rw [blockEntries_of_generateTop ht] at hmem
      obtain ⟨bio, -, rfl⟩ := List.mem_map.mp hmem
      exact .inr rfl
  show (BitVec.ofNat e.numOptions e.reset).toNat = 2 ^ (if e.reset = 1 then 0 else 1)
  rcases hreset with h1 | h2
  · rw [h1, if_pos rfl, BitVec.toNat_ofNat, Nat.mod_eq_of_lt (by omega)]
    rfl
  · rw [h2, if_neg (by decide), BitVec.toNat_ofNat, Nat.mod_eq_of_lt hlarge]
    rfl

/-! ## When it all fits -/

/-- The selectors are packed, and the driver selects what it is asked to at the sink it is asked
for and at no other, if and only if no sink has more than eight options, no kind has more than
2048 sinks and the names of the sinks are told apart. -/
theorem packs_iff (ht : generateTop config = .ok t) : Packs t ↔ Fits t.blockIos t.pins :=
  ⟨fits_of_packs ht, packs_of_fits ht⟩

/-- A block with one instance. -/
def single (name : String) (ios : List BlockIo) : Block := ⟨name, 1, ios, Int.le_refl 1⟩

theorem output_default : Direction.output ≠ .inout ∨ (0 : Int) = 0 := .inr rfl

theorem inout_default : Direction.inout ≠ .inout ∨ (0 : Int) = 0 := .inr rfl

def outputIo (name : String) (length : Option Int) : BlockIo :=
  ⟨name, .output, none, 0, length, output_default⟩

def inoutIo (name : String) (combine : BlockIoCombine) (length : Option Int) : BlockIo :=
  ⟨name, .inout, some combine, 0, length, inout_default⟩

def pinOn (name : String) (links : List BlockIoUid) : Pin := ⟨name, none, links, false, .inl rfl⟩

/-- The first serial port, on its two pins. -/
def serial : TopConfig :=
  ⟨[uart], [pinOn "ser0_tx" [⟨"uart", 0, "tx", none⟩], pinOn "ser0_rx" [⟨"uart", 0, "rx", none⟩]],
    by decide⟩

/-- What it is rendered with. -/
def serialTop : TemplateVariables := (generateTop serial).toOption.get (by decide +kernel)

/-- And over any calls each of its selectors holds what was last selected. -/
theorem packs_serial :
    generateTop serial = .ok serialTop ∧ Packs serialTop ∧
      ∀ calls : List SinkCall, (∀ c ∈ calls, c.sink ∈ serialTop.sinks) →
        Holds serialTop (execAll calls resetSels) (chooseAll calls Selector.default) := by
  have ht : generateTop serial = .ok serialTop := eq_ok_get _
  have hpacks : Packs serialTop := (packs_iff ht).mpr
    ⟨by decide +kernel, by decide +kernel, by decide +kernel, by decide +kernel,
      by decide +kernel, by decide +kernel⟩
  exact ⟨ht, hpacks, fun calls hcalls => holds_execAll hpacks hcalls (holds_reset ht)⟩

/-- A pin that eight channels of a block may drive. -/
def crowded : TopConfig :=
  ⟨[single "pwm" [outputIo "out" (some 8)]],
    [pinOn "led" [⟨"pwm", 0, "out", some 0⟩, ⟨"pwm", 0, "out", some 1⟩, ⟨"pwm", 0, "out", some 2⟩,
      ⟨"pwm", 0, "out", some 3⟩, ⟨"pwm", 0, "out", some 4⟩, ⟨"pwm", 0, "out", some 5⟩,
      ⟨"pwm", 0, "out", some 6⟩, ⟨"pwm", 0, "out", some 7⟩]], by decide⟩

/-- What it is rendered with. -/
def crowdedTop : TemplateVariables := (generateTop crowded).toOption.get (by decide +kernel)

/-- The driver accepts the last of the nine sources and writes a zero. -/
example : (pinSinkEnum crowdedTop.outputPins).assigns "led" (.select 8) = some 0 := by
  decide +kernel

theorem not_packs_crowded : generateTop crowded = .ok crowdedTop ∧ ¬ Packs crowdedTop := by
  have ht : generateTop crowded = .ok crowdedTop := eq_ok_get _
  refine ⟨ht, fun h => ?_⟩
  have hcount : ∃ pin ∈ crowdedTop.pins,
      pin.blockIoLinks.countP (mayDrive crowdedTop.blockIos) = 8 := by decide +kernel
  obtain ⟨pin, hpin, height⟩ := hcount
  have hle := (fits_of_packs ht h).pinOptions pin hpin
  rw [height] at hle
  exact absurd hle (by decide)

end Packs

end SonataSystem.TopGen
