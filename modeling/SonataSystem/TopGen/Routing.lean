import SonataSystem.Lib.Fallible
import SonataSystem.TopGen.Generator
import Mathlib.Algebra.BigOperators.Group.List.Basic
import Mathlib.Data.BitVec

/-!
# Where a select value routes a block io

The pin multiplexer has, for each pin that a block may drive, a one-hot multiplexer of a
constant and the block ios that drive the pin, and for each block io with a combined input a
comparison of the pin's selector with a value. Both number the links of the pin, the first
without those that are inputs only and the second with them.

`Agrees` is what the two must have in common, and `agrees_iff` when they do.

An inout that combines its pins must look at the selector of each of them for the value at which
that pin has it for a driver. The value is a power of two in both numberings, so they agree if the
number of the link is the same in both: no link before it is to an input.
-/

set_option autoImplicit false

namespace SonataSystem.TopGen

open Lib

/-! ## The generated hardware -/

/-- `prim_onehot_mux`, for one bit. -/
def onehotMux (ins : List Bool) {w : Nat} (sel : BitVec w) : Bool :=
  (List.range w).any fun k => sel.getLsbD k && ins.getD k false

/-- What the multiplexer of the pin drives it with, each block io driving what `drive` says. -/
def OutputPin.toPin (o : OutputPin) (drive : BlockIoUid → Bool) (sel : BitVec o.numOptions) :
    Bool :=
  onehotMux (false :: o.possibleBlockOutputs.map fun bio => drive bio.uid) sel

/-- The condition under which a combined input takes what comes from the pin. -/
def takesPin {w : Nat} (sel : BitVec w) (selectValue : Nat) : Bool :=
  sel == BitVec.ofNat w selectValue

/-- Exactly one bit is set. -/
def OneHot {w : Nat} (sel : BitVec w) : Prop := ∃ k, k < w ∧ sel = BitVec.twoPow w k

/-- The combined input of `blockIo` and the output multiplexer of `pin` mean the same by
`selectValue`: it is the one-hot value of an option that is `blockIo`, it fits in the
selector, and of the one-hot values it alone makes `blockIo` drive the pin. -/
structure Agrees (t : TemplateVariables) (blockIo : BlockIoFlat) (pin : PinFlat)
    (selectValue : Nat) (o : OutputPin) : Prop where
  output : o ∈ t.outputPins ∧ o.pin = pin
  selects : ∃ k, (o.possibleBlockOutputs[k]?).map BlockIoFlat.uid = some blockIo.uid ∧
    selectValue = 2 ^ (k + 1)
  fits : selectValue < 2 ^ o.numOptions
  routes : ∀ sel : BitVec o.numOptions, OneHot sel →
    (takesPin sel selectValue = true ↔ ∀ drive, o.toPin drive sel = drive blockIo.uid)

/-- No link of the pin up to that of the block io is an input only. -/
def followsNoInput (blockIos : List BlockIoFlat) (pin : PinFlat) (uid : BlockIoUid) : Bool :=
  (pin.blockIoLinks.take (pin.blockIoLinks.idxOf uid + 1)).all fun link =>
    match blocksMap blockIos link with
    | some bio => bio.direction != .input
    | none => true

/-! ## Lists -/

section Lists

variable {α : Type*} {l : List α} {q p : α → Bool} {x : α} {k : Nat}

/-- An element keeps its place when others are dropped, if none before it is. -/
theorem getElem?_filter_iff (hx : l[k]? = some x) (hpx : p x = true)
    (huniq : ∀ j y, l[j]? = some y → p y = true → j = k) :
    (∃ y, (l.filter q)[k]? = some y ∧ p y = true) ↔ ∀ y ∈ l.take (k + 1), q y = true := by
  obtain ⟨hk, hget⟩ := List.getElem?_eq_some_iff.mp hx
  have hsplit : l = l.take k ++ x :: l.drop (k + 1) := by
    rw [← hget, List.getElem_cons_drop, List.take_append_drop]
  have htake : l.take (k + 1) = l.take k ++ [x] := by
    rw [List.take_add_one, hx]
    rfl
  have hlen : (l.take k).length = k := List.length_take_of_le (Nat.le_of_lt hk)
  have hbefore : ∀ y ∈ l.take k, p y = false := by
    intro y hy
    obtain ⟨j, hj, hyj⟩ := List.getElem_of_mem hy
    rw [hlen] at hj
    by_contra hp
    have hjk := huniq j y (by rw [← hyj]; simp [Nat.lt_trans hj hk]) (by simpa using hp)
    omega
  have hafter : ∀ y ∈ l.drop (k + 1), p y = false := by
    intro y hy
    obtain ⟨j, hj, hyj⟩ := List.getElem_of_mem hy
    rw [List.length_drop] at hj
    by_contra hp
    have hjk := huniq (k + 1 + j) y (by rw [← hyj]; simp) (by simpa using hp)
    omega
  rw [htake]
  constructor
  · rintro ⟨y, hy, hpy⟩
    have hfilter : l.filter q =
        (l.take k).filter q ++ (x :: l.drop (k + 1)).filter q := by
      rw [← List.filter_append, ← hsplit]
    have hle := List.length_filter_le q (l.take k)
    rw [hlen] at hle
    rw [hfilter, List.getElem?_append_right hle] at hy
    cases hqx : q x with
    | false =>
      rw [List.filter_cons_of_neg (by simp [hqx])] at hy
      have hlate := hafter y (List.mem_of_mem_filter (List.mem_of_getElem? hy))
      rw [hlate] at hpy
      cases hpy
    | true =>
      rw [List.filter_cons_of_pos hqx] at hy
      cases hd : k - ((l.take k).filter q).length with
      | succ d =>
        rw [hd, List.getElem?_cons_succ] at hy
        have hlate := hafter y (List.mem_of_mem_filter (List.mem_of_getElem? hy))
        rw [hlate] at hpy
        cases hpy
      | zero =>
        -- nothing was dropped from the elements before
        have hsame : ((l.take k).filter q).length = (l.take k).length := by omega
        have hall := List.length_filter_eq_length_iff.mp hsame
        intro z hz
        rcases List.mem_append.mp hz with hz | hz
        · exact hall z hz
        · rw [List.mem_singleton.mp hz]
          exact hqx
  · intro hall
    have hq : (l.take k).filter q = l.take k :=
      List.filter_eq_self.mpr fun y hy => hall y (List.mem_append_left _ hy)
    have hqx := hall x (List.mem_append_right _ List.mem_cons_self)
    refine ⟨x, ?_, hpx⟩
    rw [hsplit, List.filter_append, hq, List.getElem?_append_right (Nat.le_of_eq hlen), hlen,
      Nat.sub_self, List.filter_cons_of_pos hqx]
    rfl

/-- What satisfies `p` is in one place if there is one such element only. -/
theorem idx_eq_of_countP_le_one {y : α} {i j : Nat} (h : l.countP p ≤ 1) (hi : l[i]? = some x)
    (hj : l[j]? = some y) (hx : p x = true) (hy : p y = true) : i = j := by
  induction l generalizing i j with
  | nil => cases hi
  | cons z l ih =>
    -- One of them is in the tail, so the head is not counted.
    have hpos : ∀ w ∈ l, p w = true → p z = false := by
      intro w hw hpw
      by_contra hz
      have htail := List.countP_pos_iff.mpr ⟨w, hw, hpw⟩
      rw [List.countP_cons_of_pos (by simpa using hz)] at h
      omega
    cases i with
    | zero =>
      cases j with
      | zero => rfl
      | succ j =>
        cases hi
        rw [hpos y (List.mem_of_getElem? hj) hy] at hx
        cases hx
    | succ i =>
      cases j with
      | zero =>
        cases hj
        rw [hpos x (List.mem_of_getElem? hi) hx] at hy
        cases hy
      | succ j =>
        have hle := (List.sublist_cons_self z l).countP_le (p := p)
        rw [ih (hle.trans h) hi hj]

/-- If summands that are at least one add up to their number, each is one. -/
theorem eq_one_of_sum_eq_length {f : α → Nat} (hpos : ∀ z ∈ l, 1 ≤ f z)
    (hsum : (l.map f).sum = l.length) : ∀ z ∈ l, f z = 1 := by
  induction l with
  | nil =>
    intro z hz
    cases hz
  | cons w l ih =>
    rw [List.map_cons, List.sum_cons, List.length_cons] at hsum
    have hw := hpos w List.mem_cons_self
    have hl : ∀ z ∈ l, 1 ≤ f z := fun z hz => hpos z (List.mem_cons_of_mem _ hz)
    have hle : l.length ≤ (l.map f).sum := by
      have hlong := List.length_le_sum_of_one_le (l.map f) (by simpa using hl)
      rwa [List.length_map] at hlong
    have hrest := ih hl (by omega)
    intro z hz
    rcases List.mem_cons.mp hz with rfl | hz
    · omega
    · exact hrest z hz

end Lists

/-! ## What the dictionaries hold -/

section Dictionaries

variable {blockIos : List BlockIoFlat} {pins : List PinFlat} {uid : BlockIoUid}

theorem mem_of_dict {ν : Type*} {items : List (BlockIoUid × ν)} {v : ν}
    (h : dict items uid = some v) : (uid, v) ∈ items := by
  unfold dict at h
  obtain ⟨⟨key, w⟩, hfind, rfl⟩ := Option.map_eq_some_iff.mp h
  have hkey := List.find?_some hfind
  have hmem := List.mem_reverse.mp (List.mem_of_find?_eq_some hfind)
  rw [← eq_of_beq hkey]
  exact hmem

theorem uid_of_blocksMap {bio : BlockIoFlat} (h : blocksMap blockIos uid = some bio) :
    bio.uid = uid := by
  obtain ⟨b, -, hb⟩ := List.mem_map.mp (mem_of_dict h)
  cases hb
  rfl

theorem getItem_eq_ok {ν : Type*} {d : BlockIoUid → Option ν} {v : ν} :
    getItem d uid = .ok v ↔ d uid = some v := by
  unfold getItem
  cases d uid with
  | none => simp
  | some w => simp

/-- The pins of a block io after one link of a pin. -/
theorem get_appendPin {pin : PinFlat} {mapping mapping' : BlockIoToPinsMap} {link : BlockIoUid}
    (h : appendPin pin mapping link = .ok mapping') (uid : BlockIoUid) :
    mapping' uid = (mapping uid).map (· ++ List.replicate ([link].count uid) pin) := by
  obtain ⟨ps, hps, h⟩ := bind_eq_ok.mp h
  cases h
  rw [getItem_eq_ok] at hps
  by_cases hl : uid = link
  · subst hl
    simp [hps]
  · have hcount : [link].count uid = 0 := List.count_eq_zero.mpr (by simpa using hl)
    simp [hl, hcount]

theorem get_appendPins {pin : PinFlat} {links : List BlockIoUid}
    {mapping mapping' : BlockIoToPinsMap}
    (h : links.foldlM (appendPin pin) mapping = .ok mapping') (uid : BlockIoUid) :
    mapping' uid = (mapping uid).map (· ++ List.replicate (links.count uid) pin) := by
  induction links generalizing mapping with
  | nil =>
    cases h
    simp
  | cons link links ih =>
    rw [List.foldlM_cons] at h
    obtain ⟨mid, hmid, h⟩ := bind_eq_ok.mp h
    have hcount : (link :: links).count uid = [link].count uid + links.count uid := by
      rw [← List.count_append, List.singleton_append]
    rw [ih h, get_appendPin hmid uid, Option.map_map, hcount, List.replicate_add]
    congr 1
    funext ps
    simp

/-- Each pin is there as often as it links the block io. -/
def pinsLinking (pins : List PinFlat) (uid : BlockIoUid) : List PinFlat :=
  pins.flatMap fun pin => List.replicate (pin.blockIoLinks.count uid) pin

theorem get_foldlM_appendPins {mapping mapping' : BlockIoToPinsMap}
    (h : pins.foldlM (fun mapping pin => pin.blockIoLinks.foldlM (appendPin pin) mapping)
      mapping = .ok mapping') (uid : BlockIoUid) :
    mapping' uid = (mapping uid).map (· ++ pinsLinking pins uid) := by
  induction pins generalizing mapping with
  | nil =>
    cases h
    simp [pinsLinking]
  | cons pin pins ih =>
    rw [List.foldlM_cons] at h
    obtain ⟨mid, hmid, h⟩ := bind_eq_ok.mp h
    rw [ih h, get_appendPins hmid uid, Option.map_map]
    congr 1
    funext ps
    simp [pinsLinking]

theorem get_blockIoToPinMap {blockIoToPins : BlockIoToPinsMap} {ps : List PinFlat}
    (h : blockIoToPinMap blockIos pins = .ok blockIoToPins) (hps : blockIoToPins uid = some ps) :
    ps = pinsLinking pins uid := by
  rw [get_foldlM_appendPins h uid] at hps
  obtain ⟨init, hinit, rfl⟩ := Option.map_eq_some_iff.mp hps
  obtain ⟨b, -, hb⟩ := List.mem_map.mp (mem_of_dict hinit)
  cases hb
  rfl

end Dictionaries

/-! ## The two numberings -/

section Numberings

variable {blockIos : List BlockIoFlat} {pins : List PinFlat} {blockIo : BlockIoFlat}
  {pin : PinFlat} {selectValue : Nat}

theorem mem_pinsLinking {uid : BlockIoUid} :
    pin ∈ pinsLinking pins uid ↔ pin ∈ pins ∧ 1 ≤ pin.blockIoLinks.count uid := by
  simp only [pinsLinking, List.mem_flatMap, List.mem_replicate]
  constructor
  · rintro ⟨p, hp, hcount, rfl⟩
    exact ⟨hp, Nat.one_le_iff_ne_zero.mpr hcount⟩
  · rintro ⟨hp, hcount⟩
    exact ⟨pin, hp, Nat.one_le_iff_ne_zero.mp hcount, rfl⟩

theorem mem_pinsAndSelectValues :
    (pin, selectValue) ∈ pinsAndSelectValues blockIo pins ↔
      pin ∈ pins ∧ ∃ selectIdx, pin.blockIoLinks[selectIdx]? = some blockIo.uid ∧
        selectValue = 2 ^ (selectIdx + 1) := by
  simp only [pinsAndSelectValues, List.mem_flatMap, List.mem_filterMap, Prod.exists,
    List.mk_mem_zipIdx_iff_getElem?, Option.ite_none_right_eq_some, Option.some.injEq,
    Prod.mk.injEq, Nat.one_shiftLeft]
  constructor
  · rintro ⟨p, hp, link, k, hk, rfl, rfl, rfl⟩
    exact ⟨hp, k, hk, rfl⟩
  · rintro ⟨hp, k, hk, rfl⟩
    exact ⟨pin, hp, _, k, hk, rfl, rfl, rfl⟩

theorem length_filterMap_zipIdx (links : List BlockIoUid) (n : Nat) (uid : BlockIoUid) :
    ((links.zipIdx n).filterMap fun (blockIoId, selectIdx) =>
      if uid = blockIoId then some (pin, 1 <<< (selectIdx + 1)) else none).length =
      links.count uid := by
  induction links generalizing n with
  | nil => rfl
  | cons link links ih =>
    rw [List.zipIdx_cons, List.filterMap_cons]
    by_cases h : uid = link
    · subst h
      simp [ih]
    · have hne : link ≠ uid := fun he => h he.symm
      simp [h, ih, hne]

/-- No pin links a block io twice, if the assertion of `combined_input_block_ios_iter` holds. -/
theorem count_eq_one_of_length_eq
    (hassert : (pinsLinking pins blockIo.uid).length =
      (pinsAndSelectValues blockIo (pinsLinking pins blockIo.uid)).length) :
    ∀ p ∈ pinsLinking pins blockIo.uid, p.blockIoLinks.count blockIo.uid = 1 := by
  have hsum : ((pinsLinking pins blockIo.uid).map fun p => p.blockIoLinks.count blockIo.uid).sum =
      (pinsLinking pins blockIo.uid).length := by
    rw [hassert, pinsAndSelectValues, List.length_flatMap]
    congr 1
    refine List.map_congr_left fun p _ => ?_
    exact (length_filterMap_zipIdx p.blockIoLinks 0 blockIo.uid).symm
  exact eq_one_of_sum_eq_length (fun p hp => (mem_pinsLinking.mp hp).2) hsum

theorem combineInputs_eq {blockIoToPins : BlockIoToPinsMap} {defaultValue operator : String}
    {e : CombinedInputBlockIo} (hmap : blockIoToPinMap blockIos pins = .ok blockIoToPins)
    (h : combineInputs blockIoToPins blockIo defaultValue operator = .ok e) :
    e = ⟨blockIo, defaultValue, operator,
        pinsAndSelectValues blockIo (pinsLinking pins blockIo.uid)⟩ ∧
      (pinsLinking pins blockIo.uid).length =
        (pinsAndSelectValues blockIo (pinsLinking pins blockIo.uid)).length := by
  obtain ⟨ps, hps, h⟩ := bind_eq_ok.mp h
  have hlinking := get_blockIoToPinMap hmap (getItem_eq_ok.mp hps)
  subst hlinking
  simp only at h
  split at h
  case isFalse => cases h
  case isTrue hassert =>
    cases h
    exact ⟨rfl, hassert⟩

/-- What the assertion of `combined_input_block_ios_iter` makes sure of. -/
theorem count_eq_one_of_combineInputs {blockIoToPins : BlockIoToPinsMap}
    {defaultValue operator : String} {e : CombinedInputBlockIo}
    (hmap : blockIoToPinMap blockIos pins = .ok blockIoToPins)
    (h : combineInputs blockIoToPins blockIo defaultValue operator = .ok e) :
    e.blockIo = blockIo ∧ ∀ pin selectValue, (pin, selectValue) ∈ e.pinsAndSelectValues →
      pin ∈ pins ∧ pin.blockIoLinks.count blockIo.uid = 1 ∧
      ∃ selectIdx, pin.blockIoLinks[selectIdx]? = some blockIo.uid ∧
        selectValue = 2 ^ (selectIdx + 1) := by
  obtain ⟨rfl, hassert⟩ := combineInputs_eq hmap h
  refine ⟨rfl, fun pin selectValue hmem => ?_⟩
  obtain ⟨hpin, hidx⟩ := mem_pinsAndSelectValues.mp hmem
  have hone := count_eq_one_of_length_eq hassert
  exact ⟨(mem_pinsLinking.mp hpin).1, hone pin hpin, hidx⟩

theorem map_uid_of_mapM {links : List BlockIoUid} {linked : List BlockIoFlat}
    (h : links.mapM (getItem (blocksMap blockIos)) = .ok linked) :
    linked.map BlockIoFlat.uid = links := by
  have hall := mapM_eq_ok.mp h
  clear h
  induction hall with
  | nil => rfl
  | cons hb _ ih => rw [List.map_cons, ih, uid_of_blocksMap (getItem_eq_ok.mp hb)]

theorem blocksMap_of_mapM {links : List BlockIoUid} {linked : List BlockIoFlat}
    (h : links.mapM (getItem (blocksMap blockIos)) = .ok linked) (hmem : blockIo ∈ linked) :
    blocksMap blockIos blockIo.uid = some blockIo := by
  have hall := mapM_eq_ok.mp h
  clear h
  induction hall with
  | nil => cases hmem
  | cons hb _ ih =>
    rcases List.mem_cons.mp hmem with rfl | hmem
    · have hget := getItem_eq_ok.mp hb
      rwa [uid_of_blocksMap hget]
    · exact ih hmem

/-- The options of the output multiplexer of a pin. -/
theorem mem_outputPinsIter {outputPins : List OutputPin} {o : OutputPin}
    (h : outputPinsIter pins blockIos = .ok outputPins) :
    o ∈ outputPins ↔ o.pin ∈ pins ∧ ∃ linked,
      o.pin.blockIoLinks.mapM (getItem (blocksMap blockIos)) = .ok linked ∧
      o.possibleBlockOutputs = linked.filter (fun bio => bio.direction != .input) ∧
      0 < o.possibleBlockOutputs.length ∧ o.numOptions = o.possibleBlockOutputs.length + 1 := by
  obtain ⟨rows, hrows, h⟩ := bind_eq_ok.mp h
  cases h
  rw [mem_flatten_of_mapM hrows]
  constructor
  · rintro ⟨pin, hpin, row, hrow, ho⟩
    obtain ⟨linked, hlinked, hrow⟩ := bind_eq_ok.mp hrow
    simp only at hrow
    split at hrow
    case isFalse =>
      cases hrow
      cases ho
    case isTrue hpos =>
      cases hrow
      rw [List.mem_singleton.mp ho]
      exact ⟨hpin, linked, hlinked, rfl, hpos, rfl⟩
  · rintro ⟨hpin, linked, hlinked, houts, hpos, hoptions⟩
    refine ⟨o.pin, hpin, [o], ?_, List.mem_singleton.mpr rfl⟩
    refine bind_eq_ok.mpr ⟨linked, hlinked, ?_⟩
    obtain ⟨pin, outs, options⟩ := o
    simp only at houts hoptions
    subst houts hoptions
    simp only
    rw [if_pos hpos]
    rfl

end Numberings

/-! ## Where they agree -/

section Agreement

variable {config : TopConfig} {t : TemplateVariables} {e : CombinedInputBlockIo} {pin : PinFlat}
  {selectValue : Nat}

/-- What a combined input has for one of its pins, and what the output multiplexer of the pin
is made from. -/
structure Numbered (t : TemplateVariables) (uid : BlockIoUid) (pin : PinFlat)
    (linked : List BlockIoFlat) (selectIdx : Nat) : Prop where
  links : pin.blockIoLinks.mapM (getItem (blocksMap t.blockIos)) = .ok linked
  uids : linked.map BlockIoFlat.uid = pin.blockIoLinks
  here : pin.blockIoLinks[selectIdx]? = some uid
  once : pin.blockIoLinks.count uid = 1
  outputs : ∀ o, o ∈ t.outputPins ∧ o.pin = pin ↔
    o.pin = pin ∧ o.possibleBlockOutputs = linked.filter (fun bio => bio.direction != .input) ∧
    0 < o.possibleBlockOutputs.length ∧ o.numOptions = o.possibleBlockOutputs.length + 1

theorem numbered_of_generateTop (ht : generateTop config = .ok t)
    (he : e ∈ t.combinedInputBlockIos) (hv : (pin, selectValue) ∈ e.pinsAndSelectValues) :
    ∃ linked selectIdx, Numbered t e.blockIo.uid pin linked selectIdx ∧
      selectValue = 2 ^ (selectIdx + 1) := by
  obtain ⟨pins, -, ht⟩ := bind_eq_ok.mp ht
  obtain ⟨blockIoToPins, hmap, ht⟩ := bind_eq_ok.mp ht
  obtain ⟨outputPins, houtputs, ht⟩ := bind_eq_ok.mp ht
  obtain ⟨outputBlockIos, -, ht⟩ := bind_eq_ok.mp ht
  obtain ⟨combined, hcombined, ht⟩ := bind_eq_ok.mp ht
  cases ht
  obtain ⟨rows, hrows, hcombined⟩ := bind_eq_ok.mp hcombined
  cases hcombined
  obtain ⟨blockIo, -, row, hrow, he⟩ := (mem_flatten_of_mapM hrows).mp he
  have hentry : ∃ defaultValue operator,
      combineInputs blockIoToPins blockIo defaultValue operator = .ok e := by
    split at hrow
    case h_1 =>
      obtain ⟨c, hc, hrow⟩ := bind_eq_ok.mp hrow
      cases hrow
      rw [List.mem_singleton.mp he]
      exact ⟨_, _, hc⟩
    case h_2 =>
      obtain ⟨c, hc, hrow⟩ := bind_eq_ok.mp hrow
      cases hrow
      rw [List.mem_singleton.mp he]
      exact ⟨_, _, hc⟩
    case h_3 =>
      cases hrow
      cases he
  obtain ⟨defaultValue, operator, hc⟩ := hentry
  obtain ⟨rfl, hvalues⟩ := count_eq_one_of_combineInputs hmap hc
  obtain ⟨hpin, honce, selectIdx, hidx, hvalue⟩ := hvalues pin selectValue hv
  -- the same links were looked up for the output multiplexer
  obtain ⟨rows, hrows, -⟩ := bind_eq_ok.mp houtputs
  have hlinked : ∃ linked, pin.blockIoLinks.mapM
      (getItem (blocksMap (flattenBlockIos config.blocks))) = .ok linked := by
    obtain ⟨row, hrow⟩ := exists_ok_of_mapM hrows hpin
    obtain ⟨linked, hlinked, -⟩ := bind_eq_ok.mp hrow
    exact ⟨linked, hlinked⟩
  obtain ⟨linked, hlinked⟩ := hlinked
  refine ⟨linked, selectIdx, ⟨hlinked, map_uid_of_mapM hlinked, hidx, honce, fun o => ?_⟩, hvalue⟩
  rw [mem_outputPinsIter houtputs]
  constructor
  · rintro ⟨⟨-, linked', hlinked', houts⟩, rfl⟩
    rw [hlinked] at hlinked'
    cases hlinked'
    exact ⟨rfl, houts⟩
  · rintro ⟨rfl, houts⟩
    exact ⟨⟨hpin, linked, hlinked, houts⟩, rfl⟩

variable {uid : BlockIoUid} {linked : List BlockIoFlat} {selectIdx : Nat}

theorem Numbered.idxOf_eq (h : Numbered t uid pin linked selectIdx) :
    pin.blockIoLinks.idxOf uid = selectIdx := by
  have hmem := List.mem_of_getElem? h.here
  have hself : pin.blockIoLinks[pin.blockIoLinks.idxOf uid]? = some uid := by
    rw [List.getElem?_eq_getElem (List.idxOf_lt_length_iff.mpr hmem), List.getElem_idxOf]
  exact idx_eq_of_countP_le_one (Nat.le_of_eq h.once) hself h.here (beq_self_eq_true uid)
    (beq_self_eq_true uid)

theorem Numbered.countP_le_one (h : Numbered t uid pin linked selectIdx) :
    linked.countP (fun bio => bio.uid == uid) ≤ 1 := by
  have hcount := h.once
  rw [← h.uids, List.count, List.countP_map] at hcount
  exact Nat.le_of_eq hcount

/-- The block io has the same place among the links of the pin and among their block ios. -/
theorem Numbered.get_linked (h : Numbered t uid pin linked selectIdx) :
    ∃ bio, linked[selectIdx]? = some bio ∧ bio.uid = uid := by
  have hhere := h.here
  rw [← h.uids, List.getElem?_map] at hhere
  exact Option.map_eq_some_iff.mp hhere

theorem Numbered.followsNoInput_iff (h : Numbered t uid pin linked selectIdx) :
    followsNoInput t.blockIos pin uid = true ↔
      ∀ bio ∈ linked.take (selectIdx + 1), (bio.direction != .input) = true := by
  have hmap : pin.blockIoLinks.take (selectIdx + 1) =
      (linked.take (selectIdx + 1)).map BlockIoFlat.uid := by
    rw [← h.uids, List.map_take]
  rw [followsNoInput, h.idxOf_eq, hmap, List.all_map, List.all_eq_true]
  refine forall₂_congr fun bio hbio => ?_
  rw [Function.comp_apply, blocksMap_of_mapM h.links (List.mem_of_mem_take hbio)]

/-- The block io keeps its number among the options if no input comes before it. -/
theorem Numbered.keeps_iff (h : Numbered t uid pin linked selectIdx) :
    (∃ bio, (linked.filter fun bio => bio.direction != .input)[selectIdx]? = some bio ∧
      bio.uid = uid) ↔ followsNoInput t.blockIos pin uid = true := by
  obtain ⟨bio, hbio, huid⟩ := h.get_linked
  have honly : ∀ j y, linked[j]? = some y → (y.uid == uid) = true → j = selectIdx := by
    intro j y hy hyu
    exact idx_eq_of_countP_le_one h.countP_le_one hy hbio hyu (beq_iff_eq.mpr huid)
  have hself : (bio.uid == uid) = true := beq_iff_eq.mpr huid
  rw [h.followsNoInput_iff,
    ← getElem?_filter_iff (p := fun bio => bio.uid == uid) hbio hself honly]
  simp only [beq_iff_eq]

theorem takesPin_twoPow {w k n : Nat} (hk : k < w) (hn : n < w) :
    takesPin (BitVec.twoPow w k) (2 ^ n) = true ↔ k = n := by
  have hof : BitVec.ofNat w (2 ^ n) = BitVec.twoPow w n := by
    apply BitVec.eq_of_toNat_eq
    rw [BitVec.toNat_ofNat, BitVec.toNat_twoPow]
  rw [takesPin, hof, beq_iff_eq]
  constructor
  · intro heq
    have hbit : (BitVec.twoPow w k).getLsbD k = true := by simp [hk]
    rw [heq, BitVec.getLsbD_twoPow] at hbit
    simp only [Bool.and_eq_true, decide_eq_true_eq] at hbit
    exact hbit.2.symm
  · rintro rfl
    rfl

theorem onehotMux_twoPow {w k : Nat} (hk : k < w) (ins : List Bool) :
    onehotMux ins (BitVec.twoPow w k) = ins.getD k false := by
  rw [Bool.eq_iff_iff, onehotMux, List.any_eq_true]
  constructor
  · rintro ⟨j, hj, hon⟩
    rw [Bool.and_eq_true, BitVec.getLsbD_twoPow] at hon
    simp only [Bool.and_eq_true, decide_eq_true_eq] at hon
    rw [hon.1.2]
    exact hon.2
  · intro hon
    refine ⟨k, List.mem_range.mpr hk, ?_⟩
    rw [hon]
    simp [hk]

theorem Numbered.agrees_of_keeps (h : Numbered t uid pin linked selectIdx) {blockIo : BlockIoFlat}
    (hu : blockIo.uid = uid) {bio : BlockIoFlat}
    (hbio : (linked.filter fun bio => bio.direction != .input)[selectIdx]? = some bio)
    (huid : bio.uid = uid) :
    Agrees t blockIo pin (2 ^ (selectIdx + 1))
      ⟨pin, linked.filter fun bio => bio.direction != .input,
        (linked.filter fun bio => bio.direction != .input).length + 1⟩ := by
  have hlt := (List.getElem?_eq_some_iff.mp hbio).1
  refine ⟨(h.outputs _).mpr ⟨rfl, rfl, Nat.lt_of_le_of_lt (Nat.zero_le _) hlt, rfl⟩,
    ⟨selectIdx, ?_, rfl⟩, ?_, ?_⟩
  · rw [hbio, hu, ← huid]
    rfl
  · exact Nat.pow_lt_pow_right (by decide) (Nat.succ_lt_succ hlt)
  · rintro sel ⟨k, hk, rfl⟩
    rw [takesPin_twoPow hk (Nat.succ_lt_succ hlt), hu]
    constructor
    · rintro rfl drive
      rw [OutputPin.toPin, onehotMux_twoPow hk, List.getD_cons_succ, List.getD_eq_getElem?_getD,
        List.getElem?_map, hbio, ← huid]
      rfl
    · intro hdrive
      -- let the block io alone drive a one
      have hon := hdrive fun u => u == uid
      rw [OutputPin.toPin, onehotMux_twoPow hk, beq_self_eq_true] at hon
      cases k with
      | zero => cases hon
      | succ k =>
        rw [List.getD_cons_succ, List.getD_eq_getElem?_getD, List.getElem?_map] at hon
        cases hy : (linked.filter fun bio => bio.direction != .input)[k]? with
        | none =>
          rw [hy] at hon
          cases hon
        | some y =>
          rw [hy] at hon
          have hle : (linked.filter fun bio => bio.direction != .input).countP
              (fun bio => bio.uid == uid) ≤ 1 :=
            List.filter_sublist.countP_le.trans h.countP_le_one
          rw [idx_eq_of_countP_le_one hle hy hbio hon (beq_iff_eq.mpr huid)]

/-- A combined input and the output multiplexer of one of its pins agree on the select value
if and only if the block io is the first link of the pin or comes after others that may drive
the pin only. -/
theorem agrees_iff (ht : generateTop config = .ok t) (he : e ∈ t.combinedInputBlockIos)
    (hv : (pin, selectValue) ∈ e.pinsAndSelectValues) :
    (∃ o, Agrees t e.blockIo pin selectValue o) ↔
      followsNoInput t.blockIos pin e.blockIo.uid = true := by
  obtain ⟨linked, selectIdx, hnum, rfl⟩ := numbered_of_generateTop ht he hv
  rw [← hnum.keeps_iff]
  constructor
  · rintro ⟨o, hagrees⟩
    obtain ⟨-, houts, -, -⟩ := (hnum.outputs o).mp hagrees.output
    obtain ⟨k, hk, hpow⟩ := hagrees.selects
    have hidx : k = selectIdx := Nat.succ.inj (Nat.pow_right_injective (le_refl 2) hpow.symm)
    rw [houts, hidx] at hk
    exact Option.map_eq_some_iff.mp hk
  · rintro ⟨bio, hbio, huid⟩
    exact ⟨_, hnum.agrees_of_keeps rfl hbio huid⟩

end Agreement

/-! ## Some blocks and pins of `top_config.toml` -/

/-- The five GPIO instances, with 32 bits each. -/
def gpio : Block := ⟨"gpio", 5, [⟨"ios", .inout, some .mux, 0, some 32, by decide⟩], by decide⟩

def uart : Block :=
  ⟨"uart", 3, [⟨"rx", .input, none, 1, none, by decide⟩, ⟨"tx", .output, none, 0, none, by decide⟩],
    by decide⟩

def i2c : Block :=
  ⟨"i2c", 2, [⟨"scl", .inout, some .and, 0, none, by decide⟩,
    ⟨"sda", .inout, some .and, 0, none, by decide⟩], by decide⟩

def spi : Block :=
  ⟨"spi", 3, [⟨"cipo", .input, none, 0, none, by decide⟩,
    ⟨"copi", .output, none, 0, none, by decide⟩, ⟨"sclk", .output, none, 0, none, by decide⟩,
    ⟨"cs", .output, none, 0, some 4, by decide⟩], by decide⟩

/-- A pin with one link. -/
def scl0 : Pin := ⟨"scl0", none, [⟨"i2c", 0, "scl", none⟩], false, by decide⟩

/-- A pin with an input in front of the link to `i2c`. -/
def pmod0_3 : Pin :=
  ⟨"pmod0_3", none, [⟨"gpio", 2, "ios", some 2⟩, ⟨"spi", 1, "cipo", none⟩, ⟨"i2c", 0, "scl", none⟩,
    ⟨"uart", 1, "rx", none⟩], false, by decide⟩

/-- A pin with three links and no input. -/
def pmod0_4 : Pin :=
  ⟨"pmod0_4", none, [⟨"gpio", 2, "ios", some 3⟩, ⟨"spi", 1, "sclk", none⟩,
    ⟨"i2c", 0, "sda", none⟩], false, by decide⟩

def excerpt : TopConfig := ⟨[gpio, uart, i2c, spi], [scl0, pmod0_3, pmod0_4], by decide⟩

/-- What the excerpt is rendered with. -/
def excerptTop : TemplateVariables := (generateTop excerpt).toOption.get (by decide +kernel)

theorem generateTop_excerpt : generateTop excerpt = .ok excerptTop := Lib.eq_ok_get _

/-- Two entries of the excerpt for the third of several links. The value is the same, and where one
of the links before is an input it is too large. -/
theorem excerptTop_entries :
    (∃ e ∈ excerptTop.combinedInputBlockIos, ∃ entry ∈ e.pinsAndSelectValues,
      e.blockIo.uid = ⟨"i2c", 0, "sda", none⟩ ∧ entry.1.groupName = "pmod0_4" ∧ entry.2 = 8 ∧
      followsNoInput excerptTop.blockIos entry.1 e.blockIo.uid = true) ∧
    ∃ e ∈ excerptTop.combinedInputBlockIos, ∃ entry ∈ e.pinsAndSelectValues,
      e.blockIo.uid = ⟨"i2c", 0, "scl", none⟩ ∧ entry.1.groupName = "pmod0_3" ∧ entry.2 = 8 ∧
      ∀ o ∈ excerptTop.outputPins, o.pin = entry.1 → o.numOptions = 3 := by
  decide +kernel

/-- The data of the first I2C controller come after two outputs in the links of `pmod0_4`. -/
theorem agrees_pmod0_4 :
    ∃ e ∈ excerptTop.combinedInputBlockIos, ∃ entry ∈ e.pinsAndSelectValues,
      e.blockIo.uid = ⟨"i2c", 0, "sda", none⟩ ∧ entry.1.groupName = "pmod0_4" ∧ entry.2 = 8 ∧
      ∃ o, Agrees excerptTop e.blockIo entry.1 entry.2 o := by
  obtain ⟨e, he, entry, hentry, huid, hname, hvalue, hfollows⟩ := excerptTop_entries.1
  exact ⟨e, he, entry, hentry, huid, hname, hvalue,
    (agrees_iff generateTop_excerpt he hentry).mpr hfollows⟩

/-- The clock of the first I2C controller comes after the input of an SPI controller in the
links of `pmod0_3`. Its combined input compares the three bits of the selector with 8. -/
theorem not_agrees_pmod0_3 :
    generateTop excerpt = .ok excerptTop ∧
    ∃ e ∈ excerptTop.combinedInputBlockIos, ∃ entry ∈ e.pinsAndSelectValues,
      e.blockIo.uid = ⟨"i2c", 0, "scl", none⟩ ∧ entry.1.groupName = "pmod0_3" ∧ entry.2 = 8 ∧
      ¬ ∃ o, Agrees excerptTop e.blockIo entry.1 entry.2 o := by
  obtain ⟨e, he, entry, hentry, huid, hname, hvalue, hwidth⟩ := excerptTop_entries.2
  refine ⟨generateTop_excerpt, e, he, entry, hentry, huid, hname, hvalue, ?_⟩
  rintro ⟨o, hagrees⟩
  have hfits := hagrees.fits
  rw [hvalue, hwidth o hagrees.output.1 hagrees.output.2] at hfits
  exact absurd hfits (by decide)

end SonataSystem.TopGen
