/-
  Long names: what is stored in long-name slots is read back.

  1. **Specification** — a name is cut into parts of 13 characters.  `Encodes s chars` says how a
     slot holds a part, and `LongName img fat i name` that the parts of a name stand in the slots
     from `i` on, the last part first.
  2. **What is not looked at** — the sequence numbers, so that any non-zero first byte will do, the
     mark of a deleted slot too.
  3. **The crux (`partsBefore_run`)** — where no long-name slot stands before the group, the parts
     are those of the group.  `long_name_reported` says it of names of up to 255 characters.
-/
import MiniLabs.Fsrecov.Listing

set_option linter.unusedVariables false

namespace Fsrecov

open Checked Libc

/-! ## Runs of long-name slots -/

section Run

variable {img : List UInt8} {fat : FatView} {i n : Nat}

/-- No long-name slot stands directly before slot `i`. -/
def Fresh (img : List UInt8) (fat : FatView) (i : Nat) : Prop :=
  i = 0 ∨ isLfn (slotAt img fat (i - 1)) = false

instance : Decidable (Fresh img fat i) := inferInstanceAs (Decidable (_ ∨ _))

/-- Where a name may begin there are no parts. -/
theorem longSlots_fresh (h : Fresh img fat i) : longSlots img fat i = [] := by
  rcases h with rfl | hno
  · rfl
  · cases i with
    | zero => rfl
    | succ i => exact longSlots_of_not_lfn hno

/-- A run of long-name slots is added slot by slot. -/
theorem longSlots_run (h : ∀ k < n, isLfn (slotAt img fat (i + k)) = true) :
    longSlots img fat (i + n)
      = longSlots img fat i ++ (List.range n).map fun k => slotAt img fat (i + k) := by
  induction n with
  | zero => exact (List.append_nil _).symm
  | succ n ih =>
    rw [← Nat.add_assoc, longSlots_of_lfn (h n (Nat.lt_succ_self n)),
      ih fun k hk => h k (Nat.lt_succ_of_lt hk), List.range_succ, List.map_append,
      List.append_assoc]
    rfl

/-- The parts in the `n` slots from `i` on. -/
def ownParts (img : List UInt8) (fat : FatView) (i n : Nat) : List (List UInt8) :=
  (List.range n).map fun k => lfnText (slotAt img fat (i + k))

/-- **The parts of a group** behind a slot of another kind. -/
theorem partsBefore_run (hfresh : Fresh img fat i)
    (h : ∀ k < n, isLfn (slotAt img fat (i + k)) = true) :
    partsBefore img fat (i + n) = (ownParts img fat i n).take maxLfnParts := by
  rw [partsBefore, longSlots_run h, longSlots_fresh hfresh, List.nil_append, List.map_take,
    List.map_map]
  rfl

end Run

/-! ## Parts of a name -/

/-- The number of slots for a name. -/
def partCount (name : List UInt8) : Nat := (name.length + 12) / 13

/-- Part `j` of a name. -/
def namePart (name : List UInt8) (j : Nat) : List UInt8 := (name.drop (13 * j)).take 13

/-- The words of a part: a terminator and padding fill up the slot. -/
def units (chars : List UInt8) : List Nat :=
  (chars.map UInt8.toNat ++ 0x0000 :: List.replicate 12 0xffff).take 13

/-- A slot holds a part. -/
structure Encodes (s chars : List UInt8) : Prop where
  used : byteAt s 0 ≠ 0
  attr : byteAt s 11 = attrLfn
  words : pos.map (word16 s) = units chars

instance (s chars : List UInt8) : Decidable (Encodes s chars) :=
  decidable_of_iff (byteAt s 0 ≠ 0 ∧ byteAt s 11 = attrLfn ∧ pos.map (word16 s) = units chars)
    ⟨fun h => ⟨h.1, h.2.1, h.2.2⟩, fun h => ⟨h.used, h.attr, h.words⟩⟩

/-- The slots of a long name, the last part first. -/
def LongName (img : List UInt8) (fat : FatView) (i : Nat) (name : List UInt8) : Prop :=
  ∀ j < partCount name,
    Encodes (slotAt img fat (i + (partCount name - 1 - j))) (namePart name j)

instance (img : List UInt8) (fat : FatView) (i : Nat) (name : List UInt8) :
    Decidable (LongName img fat i name) := inferInstanceAs (Decidable (∀ j < _, _))

/-- A character of a safe name is printable ASCII. -/
theorem safeNameChar_print {ch : UInt8} (h : safeNameChar ch = true) :
    ch.toNat < 128 ∧ isPrint ch = true := by
  rw [safeNameChar, isAlnum] at h
  rw [isPrint]
  simp only [Bool.or_eq_true, Bool.and_eq_true, decide_eq_true_eq, beq_iff_eq,
    UInt8.le_iff_toNat_le, UInt8.reduceToNat] at h ⊢
  rcases h with ((((⟨h₁, h₂⟩ | ⟨h₁, h₂⟩) | ⟨h₁, h₂⟩) | rfl) | rfl) | rfl
  · exact ⟨by omega, by omega, by omega⟩
  · exact ⟨by omega, by omega, by omega⟩
  · exact ⟨by omega, by omega, by omega⟩
  · decide
  · decide
  · decide

/-- Printable characters are kept. -/
theorem textOf_chars {chars : List UInt8} (h : ∀ ch ∈ chars, safeNameChar ch = true)
    (rest : List Nat) : textOf (chars.map UInt8.toNat ++ rest) = chars ++ textOf rest := by
  induction chars with
  | nil => rfl
  | cons ch chars ih =>
    obtain ⟨hlt, hprint⟩ := safeNameChar_print (h ch List.mem_cons_self)
    have hback : ch.toNat.toUInt8 = ch := UInt8.ofNat_toNat
    have hzero : ¬ (ch.toNat = 0x0000 ∨ ch.toNat = 0xffff) := by
      rintro (h0 | hf)
      · have hch : ch = 0 := UInt8.toNat_inj.mp h0
        rw [hch] at hprint
        exact absurd hprint (by decide)
      · omega
    rw [List.map_cons, List.cons_append, textOf_cons, if_neg hzero, hback, if_pos ⟨hlt, hprint⟩,
      ih fun c hc => h c (List.mem_cons_of_mem _ hc), List.cons_append]

/-- **A slot** gives back the part that it holds. -/
theorem lfnText_of_encodes {s chars : List UInt8} (hs : Encodes s chars)
    (hchars : ∀ ch ∈ chars, safeNameChar ch = true) (hlen : chars.length ≤ 13) :
    lfnText s = chars := by
  have hend : textOf ((0x0000 :: List.replicate 12 0xffff).take (13 - chars.length)) = [] := by
    cases hroom : 13 - chars.length with
    | zero => rfl
    | succ k => rw [List.take_succ_cons, textOf_cons, if_pos (Or.inl rfl)]
  rw [lfnText, hs.words, units, List.take_append, List.length_map,
    List.take_of_length_le (by rw [List.length_map]; exact hlen), textOf_chars hchars, hend,
    List.append_nil]

/-- A slot that holds a part is a long-name slot. -/
theorem Encodes.isLfn {s chars : List UInt8} (h : Encodes s chars) :
    Fsrecov.isLfn s = true := by
  rw [Fsrecov.isLfn, Bool.and_eq_true, bne_iff_ne, beq_iff_eq]
  exact ⟨h.used, h.attr⟩

/-- The parts make up the name. -/
theorem namePart_flatten (name : List UInt8) (n : Nat) :
    ((List.range n).map (namePart name)).flatten = name.take (13 * n) := by
  induction n with
  | zero => rfl
  | succ n ih =>
    rw [List.range_succ, List.map_append, List.flatten_append, ih, Nat.mul_succ, List.take_add]
    show _ ++ (namePart name n ++ []) = _
    rw [List.append_nil]
    rfl

/-- The last part first, read backwards. -/
theorem range_map_reverse {α : Type} (f : Nat → α) (n : Nat) :
    ((List.range n).map fun k => f (n - 1 - k)).reverse = (List.range n).map f := by
  apply List.ext_getElem (by simp)
  intro k h₁ h₂
  rw [List.length_map, List.length_range] at h₂
  simp only [List.getElem_reverse, List.getElem_map, List.getElem_range, List.length_map,
    List.length_range]
  exact congrArg f (by omega)

section Name

variable {img : List UInt8} {fat : FatView} {i cluster size : Nat} {name : List UInt8}

/-- A name of up to 255 characters has at most 20 parts. -/
theorem partCount_le (h : name.length ≤ 255) : partCount name ≤ maxLfnParts := by
  rw [partCount, maxLfnParts]
  omega

/-- **The parts of a long name** join to the name. -/
theorem joined_longName (hname : SafeName name) (hgroup : LongName img fat i name)
    (hfresh : Fresh img fat i) : joined (partsBefore img fat (i + partCount name)) = name := by
  have hlfn : ∀ k < partCount name, isLfn (slotAt img fat (i + k)) = true := by
    intro k hk
    have h := (hgroup (partCount name - 1 - k) (by omega)).isLfn
    rwa [show partCount name - 1 - (partCount name - 1 - k) = k by omega] at h
  have htext : ∀ k < partCount name,
      lfnText (slotAt img fat (i + k)) = namePart name (partCount name - 1 - k) := by
    intro k hk
    have h := hgroup (partCount name - 1 - k) (by omega)
    rw [show partCount name - 1 - (partCount name - 1 - k) = k by omega] at h
    refine lfnText_of_encodes h (fun ch hch => hname.chars ch ?_) (List.length_take_le _ _)
    exact List.mem_of_mem_drop (List.mem_of_mem_take hch)
  have hparts : partsBefore img fat (i + partCount name)
      = (List.range (partCount name)).map fun k => namePart name (partCount name - 1 - k) := by
    have hlen : (ownParts img fat i (partCount name)).length ≤ maxLfnParts := by
      rw [ownParts, List.length_map, List.length_range]
      exact partCount_le hname.short
    rw [partsBefore_run hfresh hlfn, List.take_of_length_le hlen]
    exact List.map_congr_left fun k hk => htext k (List.mem_range.mp hk)
  have hall : name.length ≤ 13 * partCount name := by
    rw [partCount]
    omega
  rw [joined, hparts, range_map_reverse, namePart_flatten, List.take_of_length_le hall]
  exact List.take_of_length_le hname.short

/-- Slot `i` is an archive entry. -/
structure Entry (img : List UInt8) (fat : FatView) (i cluster size : Nat) : Prop where
  inside : fat.dataOffset + entrySize * i + entrySize ≤ fat.imageSize
  used : byteAt (slotAt img fat i) 0 ≠ 0
  notDirectory : byteAt (slotAt img fat i) 11 &&& attrDirectory = 0
  archive : byteAt (slotAt img fat i) 11 &&& attrArchive ≠ 0
  cluster : cluster = word16 (slotAt img fat i) 20 * 65536 + word16 (slotAt img fat i) 26
  size : size = word32 (slotAt img fat i) 28

/-- **A long name is the name of its entry.**. -/
theorem longName_qualifies (hname : SafeName name) (hgroup : LongName img fat i name)
    (hfresh : Fresh img fat i) (hentry : Entry img fat (i + partCount name) cluster size)
    (hpic : Picture img fat cluster size) :
    Qualifies img fat (i + partCount name) ⟨name, cluster, size⟩ := by
  have hparts : 0 < (partsBefore img fat (i + partCount name)).length := by
    apply List.length_pos_iff.mpr
    intro hnil
    have hjoined := joined_longName hname hgroup hfresh
    rw [hnil] at hjoined
    have hempty : name = [] := hjoined.symm
    have hending := hname.ending
    rw [hempty] at hending
    exact absurd hending (by decide)
  refine ⟨hentry.inside, hentry.used, hentry.notDirectory, hentry.archive, ?_, hentry.cluster,
    hentry.size, hname, hpic⟩
  rw [nameOf, if_pos hparts]
  exact (joined_longName hname hgroup hfresh).symm

/-- **Long names are read back**, and reported. -/
theorem long_name_reported (h : initFatView img = some (some fat)) (hname : SafeName name)
    (hgroup : LongName img fat i name) (hfresh : Fresh img fat i)
    (hentry : Entry img fat (i + partCount name) cluster size)
    (hpic : Picture img fat cluster size)
    (hroom : (scanned img fat (i + partCount name)).items.length < maxFound)
    (hnew : ∀ c ∈ (scanned img fat (i + partCount name)).items,
      c.cluster ≠ cluster ∧ c.name ≠ name) :
    ∃ items, collectCandidates img fat = some items ∧ ⟨name, cluster, size⟩ ∈ items := by
  have hv := View.of_init h
  have hq := longName_qualifies hname hgroup hfresh hentry hpic
  have hlt := hq.lt_slotCount hv
  refine ⟨_, collectCandidates_eq hv, ?_⟩
  rw [scanned_items]
  rw [scanned_items] at hroom hnew
  refine List.mem_map.mpr ⟨(i + partCount name, ⟨name, cluster, size⟩), ?_, rfl⟩
  rcases (listed_complete hv).complete _ _ hq with hin | ⟨e, he, hbefore, hclash⟩ | hfull
  · exact hin
  · have hmem : e ∈ listed img fat (i + partCount name) := by
      rw [← listed_before (Nat.le_of_lt hlt)]
      exact List.mem_filter.mpr ⟨he, decide_eq_true hbefore⟩
    obtain ⟨hcluster, hdiff⟩ := hnew e.2 (List.mem_map_of_mem hmem)
    exact absurd hclash (not_or.mpr ⟨hcluster, hdiff⟩)
  · rw [listed_before (Nat.le_of_lt hlt)] at hfull
    rw [List.length_map] at hroom
    exact absurd hroom (Nat.not_lt_of_le hfull)

end Name

/-- A long-name slot with its first byte, its checksum and its part. -/
def lfnSlot (first check : UInt8) (chars : List UInt8) : List UInt8 :=
  let bytes := (units chars).flatMap fun word => [word.toUInt8, (word / 256).toUInt8]
  first :: bytes.take 10 ++ [attrLfn, 0, check] ++ (bytes.drop 10).take 12 ++ [0, 0] ++ bytes.drop 22

/-- A deleted long name of two slots, and its picture. -/
def holiday : List UInt8 :=
  disk (lfnSlot 0xe5 0 (ascii ".bmp") ++ lfnSlot 0xe5 0 (ascii "holiday_photo") ++
    fileEntry (ascii "HOLIDA~1BMP") 5 64 ++ smallBmp)

theorem long_name_reported_holiday :
    ∃ items, collectCandidates holiday ⟨704, 32, 544⟩ = some items ∧
      ⟨ascii "holiday_photo.bmp", 5, 64⟩ ∈ items := by
  have hname : SafeName (ascii "holiday_photo.bmp") := (validFilename_iff _).mp (by decide)
  have hpic : Picture holiday ⟨704, 32, 544⟩ 5 64 :=
    ((recoverable_iff ⟨ascii "holiday_photo.bmp", 5, 64⟩).mp (by decide +kernel)).2
  have hentry : Entry holiday ⟨704, 32, 544⟩ (0 + partCount (ascii "holiday_photo.bmp")) 5 64 :=
    ⟨by decide, by decide +kernel, by decide +kernel, by decide +kernel, by decide +kernel,
      by decide +kernel⟩
  exact long_name_reported (by decide +kernel) hname (by decide +kernel) (Or.inl rfl) hentry hpic
    (by decide +kernel) (by decide +kernel)

end Fsrecov
