import SonataSystem.TopGen.Selectors
import Mathlib.Tactic.Set

/-!
# What a call of the driver does

A byte that is stored at the register of a sink arrives as a write that addresses one selector,
and one of at most eight bits takes its value from that byte alone. The driver finds the
register by the number of the enumerator, and the number of sources by a switch that is written
out in descending order. Both are right wherever the enumerators are told apart.

The two halves of the register space are treated alike, with a bank bit for the half; a list of
entries stands for either of them.
-/

set_option autoImplicit false

namespace SonataSystem.TopGen

/-! ## `sources_number` -/

section SourcesNumber

variable {sinks : List (String × Nat)} {name : String} {n prev : Nat}

theorem fallThrough_caseLines (hprev : prev ≠ 0) (hne : ∀ sink ∈ sinks, sink.2 ≠ 0) :
    fallThrough (caseLines prev sinks) = prev := by
  induction sinks generalizing prev with
  | nil => simp [caseLines, hprev, fallThrough]
  | cons sink sinks ih =>
    have hsink := hne sink List.mem_cons_self
    by_cases hsame : prev = sink.2
    · subst hsame
      have htail := ih hsink fun s hs => hne s (List.mem_cons_of_mem _ hs)
      simpa [caseLines, fallThrough] using htail
    · simp [caseLines, hprev, hsame, fallThrough]

/-- A return before a label does not matter to who jumps. -/
theorem switchOn_cons (sink : String × Nat) :
    switchOn name (caseLines prev (sink :: sinks)) =
      if sink.1 = name then fallThrough (caseLines sink.2 sinks)
      else switchOn name (caseLines sink.2 sinks) := by
  rw [caseLines]
  by_cases hret : prev ≠ 0 ∧ prev ≠ sink.2
  · rw [if_pos hret, List.singleton_append, switchOn, switchOn]
  · rw [if_neg hret, List.nil_append, switchOn]

/-- Every label is followed by the return of its own options. -/
theorem switchOn_caseLines (hnames : (sinks.map Prod.fst).Nodup)
    (hne : ∀ sink ∈ sinks, sink.2 ≠ 0) (hmem : (name, n) ∈ sinks) :
    switchOn name (caseLines prev sinks) = n := by
  induction sinks generalizing prev with
  | nil => cases hmem
  | cons sink sinks ih =>
    rw [List.map_cons, List.nodup_cons] at hnames
    have hne' : ∀ s ∈ sinks, s.2 ≠ 0 := fun s hs => hne s (List.mem_cons_of_mem _ hs)
    rw [switchOn_cons]
    rcases List.mem_cons.mp hmem with rfl | hmem
    · rw [if_pos rfl]
      exact fallThrough_caseLines (hne _ List.mem_cons_self) hne'
    · have hother : sink.1 ≠ name := by
        rintro rfl
        exact hnames.1 (List.mem_map.mpr ⟨_, hmem, rfl⟩)
      rw [if_neg hother]
      exact ih hnames.2 hne' hmem

theorem switchOn_caseLines_of_not_mem (hmem : name ∉ sinks.map Prod.fst) :
    switchOn name (caseLines prev sinks) = 2 := by
  induction sinks generalizing prev with
  | nil =>
    unfold caseLines
    split
    · rfl
    · rfl
  | cons sink sinks ih =>
    rw [List.map_cons, List.mem_cons, not_or] at hmem
    rw [switchOn_cons, if_neg fun he => hmem.1 he.symm]
    exact ih hmem.2

theorem switchOn_sourcesNumberLines (hnames : (sinks.map Prod.fst).Nodup) (hn : 2 ≤ n)
    (hmem : (name, n) ∈ sinks) : switchOn name (sourcesNumberLines sinks) = n := by
  unfold sourcesNumberLines
  set sorted := sinks.insertionSort fun a b => b.2 ≤ a.2 with hsorted
  have hperm : sorted.Perm sinks := List.perm_insertionSort _ _
  have hsub : ((sorted.filter fun sink => 2 < sink.2).map Prod.fst).Sublist
      (sorted.map Prod.fst) := List.filter_sublist.map _
  have hsortedNames : (sorted.map Prod.fst).Nodup := (hperm.map _).nodup_iff.mpr hnames
  by_cases htwo : 2 < n
  · refine switchOn_caseLines (hsortedNames.sublist hsub) ?_ ?_
    · intro sink hsink
      have hlarge := List.of_mem_filter hsink
      rw [decide_eq_true_eq] at hlarge
      exact Nat.ne_of_gt (Nat.zero_lt_of_lt hlarge)
    · exact List.mem_filter.mpr ⟨hperm.mem_iff.mpr hmem, by simpa using htwo⟩
  · have hpair : n = 2 := Nat.le_antisymm (Nat.le_of_not_lt htwo) hn
    subst hpair
    refine switchOn_caseLines_of_not_mem fun hin => ?_
    obtain ⟨sink, hsink, rfl⟩ := List.mem_map.mp hin
    have hlarge := List.of_mem_filter hsink
    have hin' := hperm.mem_iff.mp (List.mem_of_mem_filter hsink)
    rw [List.inj_on_of_nodup_map hnames hin' hmem rfl] at hlarge
    simp at hlarge

end SourcesNumber

/-! ## A byte on its way -/

section Store

variable {name : String} {bank bank' : Bool} {idx idx' numOptions reset : Nat}

/-- What arrives of a byte that is stored at the register `idx` of a bank. -/
def sinkWrite (bank : Bool) (idx : Nat) (rs2 : BitVec 32) : RegWrite :=
  ⟨BitVec.ofNat 12 (bank.toNat * 2048 + (idx - idx % 4)), BitVec.twoPow 4 (idx % 4),
    rs2.rotateLeft (idx % 4 * 8)⟩

/-- Where the enumerators of a half are counted from. -/
def sinkBase (bank : Bool) : BitVec 32 := if bank then 0x80005800 else 0x80005000

theorem toNat_sinkReg (hidx : idx < 2048) :
    (sinkBase bank + BitVec.ofNat 32 idx).toNat = 0x80005000 + bank.toNat * 2048 + idx := by
  cases bank with
  | false => simp [sinkBase, BitVec.toNat_add]; omega
  | true => simp [sinkBase, BitVec.toNat_add]; omega

theorem toNat_append_zeros {n : Nat} (x : BitVec n) : (x ++ 0#2).toNat = x.toNat * 4 := by
  simp [BitVec.toNat_append, Nat.shiftLeft_eq]

theorem toNat_storeByte_address (addr rs2 : BitVec 32) :
    (storeByte addr rs2).address.toNat = addr.toNat / 4 * 4 := by
  have haddr := addr.isLt
  refine (toNat_append_zeros (addr.extractLsb' 2 30)).trans ?_
  rw [BitVec.extractLsb'_toNat, Nat.shiftRight_eq_div_pow]
  omega

theorem pinmuxWrite_storeByte (hidx : idx < 2048) (rs2 : BitVec 32) :
    pinmuxWrite (storeByte (sinkBase bank + BitVec.ofNat 32 idx) rs2) =
      some (sinkWrite bank idx rs2) := by
  have haddr : (sinkBase bank + BitVec.ofNat 32 idx).toNat = _ := toNat_sinkReg hidx
  generalize sinkBase bank + BitVec.ofNat 32 idx = addr at haddr
  have hword := toNat_storeByte_address addr rs2
  have hbank := bank.toNat_le
  have hsel : selectsPinmux (storeByte addr rs2) = true := by
    rw [selectsPinmux, beq_iff_eq]
    apply BitVec.eq_of_toNat_eq
    rw [BitVec.extractLsb'_toNat, hword, Nat.shiftRight_eq_div_pow, BitVec.toNat_ofNat]
    omega
  have halign : ((storeByte addr rs2).address.extractLsb' 0 2 == 0#2) = true := by
    rw [beq_iff_eq]
    apply BitVec.eq_of_toNat_eq
    rw [BitVec.extractLsb'_toNat, hword, Nat.shiftRight_zero]
    simp
  have hreg : (storeByte addr rs2).address.extractLsb' 2 10 ++ 0#2 =
      BitVec.ofNat 12 (bank.toNat * 2048 + (idx - idx % 4)) := by
    apply BitVec.eq_of_toNat_eq
    refine (toNat_append_zeros _).trans ?_
    rw [BitVec.extractLsb'_toNat, hword, Nat.shiftRight_eq_div_pow, BitVec.toNat_ofNat]
    omega
  have hlane : addr.toNat % 4 = idx % 4 := by omega
  rw [pinmuxWrite, if_pos hsel, adapterReg, if_pos halign, hreg, sinkWrite, storeByte, hlane]

theorem getLsbD_bank (hidx : idx < 2048) :
    (BitVec.ofNat 12 (bank.toNat * 2048 + (idx - idx % 4))).getLsbD 11 = bank := by
  have hlow : idx - idx % 4 < 2 ^ 11 := by omega
  rw [BitVec.getLsbD_ofNat]
  cases bank with
  | false => simp [Nat.testBit_lt_two_pow hlow]
  | true =>
    rw [Bool.toNat_true, show 1 * 2048 = 2 ^ 11 * 1 by rfl, Nat.testBit_two_pow_mul_add _ hlow]
    rfl

/-- Of all selectors the byte is taken by that with its bank and number. -/
theorem addressed_sinkWrite (hidx : idx < 2048) (rs2 : BitVec 32) :
    (packed name bank' idx' numOptions reset).addressed (sinkWrite bank idx rs2) = true ↔
      bank' = bank ∧ idx' = idx := by
  have hbank := bank.toNat_le
  have hlow : ((BitVec.ofNat 12 (bank.toNat * 2048 + (idx - idx % 4))).extractLsb' 0 11).toNat =
      idx - idx % 4 := by
    rw [BitVec.extractLsb'_toNat, BitVec.toNat_ofNat, Nat.shiftRight_zero]
    omega
  have hlane : (BitVec.twoPow 4 (idx % 4)).getLsbD (idx' % 4) = decide (idx' % 4 = idx % 4) := by
    have hlt := Nat.mod_lt idx' (show 0 < 4 by decide)
    simp [hlt, eq_comm]
  simp only [Selector.addressed, packed, sinkWrite, getLsbD_bank hidx, hlow, hlane,
    Bool.and_eq_true, beq_iff_eq, decide_eq_true_eq]
  constructor
  · rintro ⟨⟨rfl, hword⟩, hsame⟩
    exact ⟨rfl, by omega⟩
  · rintro ⟨rfl, rfl⟩
    exact ⟨⟨rfl, rfl⟩, rfl⟩

theorem clockSels_same (hidx : idx < 2048) (rs2 : BitVec 32) (beyond s : Sels) :
    clockSels beyond (some (sinkWrite bank idx rs2)) s (packed name bank idx numOptions reset) =
      partSelect (beyond (packed name bank idx numOptions reset))
        (rs2.rotateLeft (idx % 4 * 8)) (idx % 4 * 8) := by
  have haddr : (packed name bank idx numOptions reset).addressed (sinkWrite bank idx rs2) = true :=
    (addressed_sinkWrite hidx rs2).mpr ⟨rfl, rfl⟩
  rw [clockSels, if_pos haddr]
  rfl

theorem clockSels_other (hidx : idx < 2048) (rs2 : BitVec 32) (beyond s : Sels)
    (hne : (bank', idx') ≠ (bank, idx)) :
    clockSels beyond (some (sinkWrite bank idx rs2)) s (packed name bank' idx' numOptions reset) =
      s (packed name bank' idx' numOptions reset) := by
  have haddr : ¬ (packed name bank' idx' numOptions reset).addressed (sinkWrite bank idx rs2) =
      true := by
    rw [addressed_sinkWrite hidx]
    rintro ⟨rfl, rfl⟩
    exact hne rfl
  rw [clockSels, if_neg haddr]

/-- A selector past the end of its bank is never written. -/
theorem not_addressed (hidx : 2048 ≤ idx) (w : RegWrite) :
    (packed name bank idx numOptions reset).addressed w = false := by
  have hlow := (w.addr.extractLsb' 0 11).isLt
  have hne : ((w.addr.extractLsb' 0 11).toNat == idx - idx % 4) = false :=
    beq_eq_false_iff_ne.mpr (by omega)
  simp only [Selector.addressed, packed, hne, Bool.and_false, Bool.false_and]

theorem clockSels_beyond (hidx : 2048 ≤ idx) (write : Option RegWrite) (beyond s : Sels) :
    clockSels beyond write s (packed name bank idx numOptions reset) =
      s (packed name bank idx numOptions reset) := by
  cases write with
  | none => rfl
  | some w =>
    rw [clockSels, not_addressed hidx]
    rfl

theorem partSelect_rotateLeft {width lane : Nat} (hlane : lane < 4) (hwidth : width ≤ 8)
    (beyond : BitVec width) (rs2 : BitVec 32) :
    partSelect beyond (rs2.rotateLeft (lane * 8)) (lane * 8) = rs2.setWidth width := by
  apply BitVec.eq_of_getLsbD_eq
  intro i hi
  have hin : lane * 8 + i < 32 := by omega
  have hmod : lane * 8 % 32 = lane * 8 := by omega
  have hge : ¬ lane * 8 + i < lane * 8 := by omega
  rw [partSelect, BitVec.getLsbD_extractLsb', BitVec.getLsbD_append, BitVec.getLsbD_rotateLeft,
    BitVec.getLsbD_setWidth]
  simp [hi, hin, hmod, hge]

/-- A selector of more than eight bits has one that is not from the byte. -/
theorem getLsbD_partSelect_eight {width lane : Nat} (hlane : lane < 4) (hwidth : 8 < width)
    (byte : BitVec 8) :
    (partSelect (BitVec.allOnes width)
      ((BitVec.allOnes 24 ++ byte : BitVec 32).rotateLeft (lane * 8)) (lane * 8)).getLsbD 8 =
      true := by
  have hmod : lane * 8 % 32 = lane * 8 := by omega
  have hge : ¬ lane * 8 + 8 < lane * 8 := by omega
  rw [partSelect, BitVec.getLsbD_extractLsb', BitVec.getLsbD_append, BitVec.getLsbD_rotateLeft]
  have hrest : (BitVec.allOnes 24 ++ byte : BitVec 32).getLsbD 8 = true := by
    refine (BitVec.getLsbD_append (x := BitVec.allOnes 24) (y := byte)).trans ?_
    simp
  by_cases hin : lane * 8 + 8 < 32
  · rw [hmod, Nat.add_sub_cancel_left, hrest]
    simp [hin, hge, hwidth]
  · simp [hin, hwidth]
    omega

end Store

/-! ## The sinks of one kind -/

/-- What the templates are given for a sink: the enumerator, the name of its selector, the
number of its options and its value after a reset. -/
structure SinkEntry where
  enumerator : String
  name : String
  numOptions : Nat
  reset : Nat

/-- The sinks of a half, numbered as they come. -/
def sinksOf (bank : Bool) (entries : List SinkEntry) : List SinkOf :=
  entries.zipIdx.map fun (e, idx) =>
    ⟨sinkEnum (sinkBase bank) (entries.map fun e => (e.enumerator, e.numOptions)), e.enumerator,
      packed e.name bank idx e.numOptions e.reset⟩

def OutputPin.entry (o : OutputPin) : SinkEntry :=
  ⟨o.pin.name, o.pin.name, o.numOptions, if o.pin.noDefaultOut then 1 else 2⟩

def OutputBlockIo.entry (o : OutputBlockIo) : SinkEntry :=
  ⟨o.blockIo.docName, o.blockIo.name, o.numOptions, 2⟩

theorem pinSinks_eq (outputPins : List OutputPin) :
    pinSinks outputPins = sinksOf false (outputPins.map OutputPin.entry) := by
  rw [pinSinks, sinksOf, List.zipIdx_map, List.map_map, List.map_map]
  rfl

theorem blockSinks_eq (outputBlockIos : List OutputBlockIo) :
    blockSinks outputBlockIos = sinksOf true (outputBlockIos.map OutputBlockIo.entry) := by
  rw [blockSinks, sinksOf, List.zipIdx_map, List.map_map, List.map_map]
  rfl

section Kind

variable {bank : Bool} {entries : List SinkEntry} {e : SinkEntry} {idx : Nat} {k : SinkOf}
  {op : SinkOp} {byte : BitVec 8}

/-- The sink of an entry. -/
def sinkAt (bank : Bool) (entries : List SinkEntry) (idx : Nat) (e : SinkEntry) : SinkOf :=
  ⟨sinkEnum (sinkBase bank) (entries.map fun e => (e.enumerator, e.numOptions)), e.enumerator,
    packed e.name bank idx e.numOptions e.reset⟩

theorem mem_sinksOf :
    k ∈ sinksOf bank entries ↔ ∃ idx e, entries[idx]? = some e ∧ k = sinkAt bank entries idx e := by
  simp only [sinksOf, List.mem_map, Prod.exists, List.mk_mem_zipIdx_iff_getElem?]
  constructor
  · rintro ⟨e, idx, he, rfl⟩
    exact ⟨idx, e, he, rfl⟩
  · rintro ⟨idx, e, he, rfl⟩
    exact ⟨e, idx, he, rfl⟩

/-- Where each name is declared once, a name has the number that it is declared with. -/
theorem lookup_of_nodup {params : List (String × Nat)} {name : String} {value : Nat}
    (hnames : (params.map Prod.fst).Nodup) (hmem : (name, value) ∈ params) :
    params.lookup name = some value := by
  obtain ⟨before, after, rfl⟩ := List.mem_iff_append.mp hmem
  rw [List.map_append, List.map_cons] at hnames
  refine List.lookup_eq_some_iff.mpr ⟨before, after, rfl, fun p hp => ?_⟩
  have hne : p.1 ≠ name :=
    (List.nodup_append.mp hnames).2.2 p.1 (List.mem_map_of_mem hp) name List.mem_cons_self
  exact bne_iff_ne.mpr hne.symm

theorem lookup_zipIdx {names : List String} {name : String} (hnames : names.Nodup)
    (hname : names[idx]? = some name) : names.zipIdx.lookup name = some idx := by
  have hkeys : (names.zipIdx.map Prod.fst).Nodup := by
    rwa [List.zipIdx_map_fst]
  exact lookup_of_nodup hkeys (List.mk_mem_zipIdx_iff_getElem?.mpr hname)

theorem reg_sinkAt (hnames : (entries.map SinkEntry.enumerator).Nodup)
    (he : entries[idx]? = some e) :
    (sinkAt bank entries idx e).enum.reg e.enumerator =
      some (sinkBase bank + BitVec.ofNat 32 idx) := by
  have henums : (sinkAt bank entries idx e).enum.enumerators =
      (entries.map SinkEntry.enumerator).zipIdx := by
    simp [sinkAt, sinkEnum, List.zipIdx_map, Function.comp_def]
  have hget : (entries.map SinkEntry.enumerator)[idx]? = some e.enumerator := by
    rw [List.getElem?_map, he]
    rfl
  rw [SinkEnum.reg, henums, lookup_zipIdx hnames hget]
  rfl

theorem sourcesNumber_sinkAt (hnames : (entries.map SinkEntry.enumerator).Nodup)
    (he : entries[idx]? = some e) (hmin : 2 ≤ e.numOptions) (hmax : e.numOptions ≤ 8) :
    ((sinkAt bank entries idx e).enum.sourcesNumber e.enumerator).toNat = e.numOptions := by
  have hnames' : ((entries.map fun e => (e.enumerator, e.numOptions)).map Prod.fst).Nodup := by
    rwa [List.map_map]
  have hmem : (e.enumerator, e.numOptions) ∈ entries.map fun e => (e.enumerator, e.numOptions) :=
    List.mem_map.mpr ⟨e, List.mem_of_getElem? he, rfl⟩
  have hswitch := switchOn_sourcesNumberLines hnames' hmin hmem
  rw [SinkEnum.sourcesNumber, BitVec.toNat_ofNat, sinkAt, sinkEnum, hswitch]
  omega

/-- What the driver assigns is one-hot, and of one of the options. -/
theorem assigns_sinkAt (hnames : (entries.map SinkEntry.enumerator).Nodup)
    (he : entries[idx]? = some e) (hmin : 2 ≤ e.numOptions) (hmax : e.numOptions ≤ 8)
    (h : (sinkAt bank entries idx e).enum.assigns e.enumerator op = some byte) :
    byte = 1#8 <<< op.source ∧ op.source < e.numOptions := by
  cases op with
  | select source =>
    rw [SinkEnum.assigns, sourcesNumber_sinkAt hnames he hmin hmax] at h
    split at h
    case isTrue => cases h
    case isFalse hlt =>
      cases h
      exact ⟨rfl, Nat.lt_of_not_le hlt⟩
  | disable =>
    cases h
    exact ⟨rfl, Nat.lt_of_lt_of_le Nat.zero_lt_two hmin⟩
  | defaultSelection =>
    cases h
    exact ⟨rfl, Nat.lt_of_lt_of_le Nat.one_lt_two hmin⟩

theorem setWidth_append_byte {width : Nat} (hmax : width ≤ 8) (rest : BitVec 24)
    (byte : BitVec 8) : (rest ++ byte : BitVec 32).setWidth width = byte.setWidth width := by
  apply BitVec.eq_of_getLsbD_eq
  intro i hi
  have hin : i < 8 := Nat.lt_of_lt_of_le hi hmax
  have hlow : (rest ++ byte : BitVec 32).getLsbD i = byte.getLsbD i := by
    refine (BitVec.getLsbD_append (x := rest) (y := byte)).trans ?_
    simp [hin]
  rw [BitVec.getLsbD_setWidth, BitVec.getLsbD_setWidth, hlow]

theorem toNat_setWidth_shiftLeft {width source : Nat} (hsource : source < width)
    (hmax : width ≤ 8) :
    ((1#8 <<< source).setWidth width).toNat = 2 ^ source := by
  have hbyte : 2 ^ source < 2 ^ 8 := Nat.pow_lt_pow_right (by decide) (by omega)
  have hfits : 2 ^ source < 2 ^ width := Nat.pow_lt_pow_right (by decide) hsource
  rw [BitVec.toNat_setWidth, BitVec.toNat_shiftLeft, BitVec.toNat_ofNat, Nat.shiftLeft_eq,
    Nat.mod_eq_of_lt (by decide : 1 < 2 ^ 8), Nat.one_mul, Nat.mod_eq_of_lt hbyte,
    Nat.mod_eq_of_lt hfits]

theorem call_sinkAt (hnames : (entries.map SinkEntry.enumerator).Nodup)
    (he : entries[idx]? = some e) (hidx : idx < 2048)
    (h : (sinkAt bank entries idx e).enum.assigns e.enumerator op = some byte) (rest : BitVec 24)
    (beyond s : Sels) :
    (sinkAt bank entries idx e).call op rest beyond s =
      some (clockSels beyond (some (sinkWrite bank idx (rest ++ byte))) s) := by
  have hreg : (sinkAt bank entries idx e).enum.reg e.enumerator = _ := reg_sinkAt hnames he
  have hwrite : pinmuxWrite (storeByte (sinkBase bank + BitVec.ofNat 32 idx) (rest ++ byte)) = _ :=
    pinmuxWrite_storeByte hidx (rest ++ byte)
  have hcall : (sinkAt bank entries idx e).call op rest beyond s =
      some (clockSels beyond (pinmuxWrite (storeByte (sinkBase bank + BitVec.ofNat 32 idx)
        (rest ++ byte))) s) := by
    rw [SinkOf.call]
    show (((sinkAt bank entries idx e).enum.assigns e.enumerator op).bind _) = _
    rw [h, Option.bind_some]
    show (((sinkAt bank entries idx e).enum.reg e.enumerator).bind _) = _
    rw [hreg]
    rfl
  rw [hcall, hwrite]

/-- What a call of the driver does to all selectors there are, if eight bits are enough. -/
theorem call_sels (hnames : (entries.map SinkEntry.enumerator).Nodup)
    (he : entries[idx]? = some e) (hidx : idx < 2048) (hmin : 2 ≤ e.numOptions)
    (hmax : e.numOptions ≤ 8) (hacc : (sinkAt bank entries idx e).accepts op = true)
    (rest : BitVec 24) (beyond s : Sels) :
    ∃ s', (sinkAt bank entries idx e).call op rest beyond s = some s' ∧
      (s' (packed e.name bank idx e.numOptions e.reset)).toNat = 2 ^ op.source ∧
      ∀ name bank' idx' numOptions reset, (bank', idx') ≠ (bank, idx) →
        s' (packed name bank' idx' numOptions reset) =
          s (packed name bank' idx' numOptions reset) := by
  obtain ⟨byte, hbyte⟩ := Option.isSome_iff_exists.mp hacc
  obtain ⟨rfl, hsource⟩ := assigns_sinkAt hnames he hmin hmax hbyte
  refine ⟨_, call_sinkAt hnames he hidx hbyte rest beyond s, ?_, ?_⟩
  · have hlane := Nat.mod_lt idx (show 0 < 4 by decide)
    rw [clockSels_same hidx]
    refine (congrArg BitVec.toNat (partSelect_rotateLeft hlane hmax _ _)).trans ?_
    rw [setWidth_append_byte hmax]
    exact toNat_setWidth_shiftLeft hsource hmax
  · intro name bank' idx' numOptions reset hne
    exact clockSels_other hidx _ beyond s hne

theorem clockSels_of_call {rest : BitVec 24} {beyond s s' : Sels}
    (h : k.call op rest beyond s = some s') : ∃ write, s' = clockSels beyond write s := by
  obtain ⟨byte, -, h⟩ := Option.bind_eq_some_iff.mp h
  obtain ⟨reg, -, h⟩ := Option.bind_eq_some_iff.mp h
  cases h
  exact ⟨_, rfl⟩

/-- If a selector takes the byte that disables it, it is in reach and eight bits are enough. -/
theorem le_of_disable (hnames : (entries.map SinkEntry.enumerator).Nodup)
    (he : entries[idx]? = some e)
    (hsel : ∀ rest beyond s, ∃ s',
      (sinkAt bank entries idx e).call .disable rest beyond s = some s' ∧
      (s' (packed e.name bank idx e.numOptions e.reset)).toNat = 2 ^ 0) :
    idx < 2048 ∧ e.numOptions ≤ 8 := by
  have hreach : idx < 2048 := by
    by_contra hidx
    obtain ⟨s', hcall, hs'⟩ := hsel 0 (fun _ => 0) (fun _ => 0)
    obtain ⟨write, rfl⟩ := clockSels_of_call hcall
    rw [clockSels_beyond (Nat.le_of_not_lt hidx)] at hs'
    cases hs'
  refine ⟨hreach, ?_⟩
  by_contra hwide
  rw [Nat.not_le] at hwide
  have hlane := Nat.mod_lt idx (show 0 < 4 by decide)
  obtain ⟨s', hcall, hs'⟩ := hsel (BitVec.allOnes 24) (fun r => BitVec.allOnes r.width) fun _ => 0
  rw [call_sinkAt hnames he hreach rfl] at hcall
  cases hcall
  rw [clockSels_same hreach] at hs'
  have hbit := getLsbD_partSelect_eight hlane hwide (1#8 <<< SinkOp.disable.source)
  have hone : (partSelect (BitVec.allOnes e.numOptions)
      ((BitVec.allOnes 24 ++ 1#8 <<< SinkOp.disable.source : BitVec 32).rotateLeft (idx % 4 * 8))
      (idx % 4 * 8)).toNat = 1 := hs'
  rw [BitVec.getLsbD, hone] at hbit
  cases hbit

end Kind

end SonataSystem.TopGen
