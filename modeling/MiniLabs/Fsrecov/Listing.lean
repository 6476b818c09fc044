/-
  The candidate list: nothing wrong is in it, and nothing right is missing.

  1. **Specification** — `Qualifies img fat i c` says on the bytes of the image that slot `i` is the
     entry of a picture: `SafeName` is what `valid_filename` accepts, `Picture` what `bmp_header_ok`
     does.  The parts of a name are read off the slots before the entry (`partsBefore`), and not off
     the scan.
  2. **The crux (`scanned_items`)** — the scan keeps of the qualifying slots what `Greedy.select`
     keeps.
  3. **Both directions (`candidates_complete`)** — what is listed qualifies, once for each cluster
     and name; what qualifies is listed, or clashes with one that is listed before it, or there was
     no room left.
-/
import MiniLabs.Fsrecov.Slots
import MiniLabs.Lib.Greedy
import Mathlib.Data.List.DropRight

set_option linter.unusedVariables false

namespace Fsrecov

open Checked Libc

/-! ## Names -/

/-- A name that may be reported. -/
structure SafeName (name : List UInt8) : Prop where
  short : name.length ≤ 255
  chars : ∀ ch ∈ name, safeNameChar ch = true
  ending : ascii ".bmp" <:+ name ∨ ascii ".BMP" <:+ name

/-- What is found is an end of the string. -/
theorem strrchr_suffix {ch : UInt8} {s t : List UInt8} (h : strrchr ch s = some t) : t <:+ s := by
  induction s with
  | nil => cases h
  | cons c s ih =>
    rw [strrchr] at h
    cases hfound : strrchr ch s with
    | some u =>
      rw [hfound] at h ih
      exact (ih h).trans (List.suffix_cons c s)
    | none =>
      rw [hfound] at h
      by_cases heq : c = ch
      · rw [if_pos heq] at h
        cases h
        exact List.suffix_rfl
      · rw [if_neg heq] at h
        cases h

/-- A character that is not there is not found. -/
theorem strrchr_not_mem {ch : UInt8} {s : List UInt8} (h : ch ∉ s) : strrchr ch s = none := by
  induction s with
  | nil => rfl
  | cons c s ih =>
    obtain ⟨hne, hs⟩ := not_or.mp (fun hor => h (List.mem_cons.mpr hor))
    rw [strrchr, ih hs]
    exact if_neg fun heq => hne heq.symm

/-- The last one is found. -/
theorem strrchr_last {ch : UInt8} {rest : List UInt8} (hrest : ch ∉ rest) (s : List UInt8) :
    strrchr ch (s ++ ch :: rest) = some (ch :: rest) := by
  induction s with
  | nil =>
    rw [List.nil_append, strrchr, strrchr_not_mem hrest]
    exact if_pos rfl
  | cons c s ih => rw [List.cons_append, strrchr, ih]

/-- **`valid_filename`** accepts the safe names. -/
theorem validFilename_iff (name : List UInt8) : validFilename name = true ↔ SafeName name := by
  rw [validFilename]
  constructor
  · intro h
    by_cases hlen : name.length = 0 ∨ name.length ≥ maxName
    · rw [if_pos hlen] at h
      cases h
    · rw [if_neg hlen] at h
      cases hall : name.all safeNameChar with
      | false =>
        rw [hall] at h
        cases h
      | true =>
        rw [hall] at h
        have hshort : name.length ≤ 255 := by
          rw [maxName] at hlen
          omega
        refine ⟨hshort, List.all_eq_true.mp hall, ?_⟩
        cases hdot : strrchr 46 name with
        | none =>
          rw [hdot] at h
          cases h
        | some dot =>
          rw [hdot] at h
          have hsuffix := strrchr_suffix hdot
          rcases Bool.or_eq_true_iff.mp h with hlower | hupper
          · exact Or.inl ((strcmp_eq_iff _ _).mp (beq_iff_eq.mp hlower) ▸ hsuffix)
          · exact Or.inr ((strcmp_eq_iff _ _).mp (beq_iff_eq.mp hupper) ▸ hsuffix)
  · rintro ⟨hshort, hchars, hending⟩
    have hlong : name.length ≠ 0 := by
      rcases hending with h | h
      · exact Nat.ne_of_gt (Nat.lt_of_lt_of_le (by decide) h.length_le)
      · exact Nat.ne_of_gt (Nat.lt_of_lt_of_le (by decide) h.length_le)
    rw [if_neg (by rw [maxName]; omega), List.all_eq_true.mpr hchars]
    rcases hending with ⟨stem, hstem⟩ | ⟨stem, hstem⟩
    · have hdot : strrchr 46 name = some (ascii ".bmp") :=
        hstem ▸ strrchr_last (by decide : (46 : UInt8) ∉ [98, 109, 112]) stem
      rw [hdot]
      decide
    · have hdot : strrchr 46 name = some (ascii ".BMP") :=
        hstem ▸ strrchr_last (by decide : (46 : UInt8) ∉ [66, 77, 80]) stem
      rw [hdot]
      decide

/-! ## Pictures -/

/-- A picture of 24 bits a pixel starts at a cluster, and all of it is inside the image. -/
structure Picture (img : List UInt8) (fat : FatView) (cluster size : Nat) : Prop where
  cluster_ge : 2 ≤ cluster
  inside : dataAt fat cluster + size ≤ fat.imageSize
  letters : byteAt img (dataAt fat cluster) = 66 ∧ byteAt img (dataAt fat cluster + 1) = 77
  fileSize : word32 img (dataAt fat cluster + 2) = size
  pixels_ge : 54 ≤ word32 img (dataAt fat cluster + 10)
  pixels_lt : word32 img (dataAt fat cluster + 10) < size
  dibSize : 40 ≤ word32 img (dataAt fat cluster + 14)
  planes : word16 img (dataAt fat cluster + 26) = 1
  depth : word16 img (dataAt fat cluster + 28) = 24

section Recoverable

variable {img : List UInt8} {fat : FatView}

/-- **What the checks of a candidate ask of the bytes.**. -/
theorem recoverable_iff (c : Candidate) :
    recoverable img fat c = true ↔ SafeName c.name ∧ Picture img fat c.cluster c.size := by
  rw [recoverable, Bool.and_eq_true, Bool.and_eq_true, decide_eq_true_iff, isBmp,
    decide_eq_true_iff, validFilename_iff]
  constructor
  · rintro ⟨⟨hname, hdata⟩, h54, hroom, hb, hm, hsize, hge, hlt, hdib, hplanes, hdepth⟩
    have hcluster : 2 ≤ c.cluster := by
      by_contra hsmall
      rw [dataAt, if_pos (Nat.lt_of_not_le hsmall)] at hdata
      exact Nat.lt_irrefl _ hdata
    exact ⟨hname, hcluster, by omega, ⟨hb, hm⟩, hsize, hge, hlt, hdib, hplanes, hdepth⟩
  · rintro ⟨hname, hpic⟩
    have hge := hpic.pixels_ge
    have hlt := hpic.pixels_lt
    have hin := hpic.inside
    exact ⟨⟨hname, by omega⟩, by omega, by omega, hpic.letters.1, hpic.letters.2, hpic.fileSize,
      hge, hlt, hpic.dibSize, hpic.planes, hpic.depth⟩

end Recoverable

/-! ## The slots before an entry -/

/-- Slot `i` of the data region. -/
def slotAt (img : List UInt8) (fat : FatView) (i : Nat) : List UInt8 :=
  slot img (fat.dataOffset + entrySize * i)

/-- The long-name slots directly before slot `i`, from the first on. -/
def longSlots (img : List UInt8) (fat : FatView) (i : Nat) : List (List UInt8) :=
  ((List.range i).map (slotAt img fat)).rtakeWhile isLfn

/-- The parts that the name of an entry in slot `i` is joined from. -/
def partsBefore (img : List UInt8) (fat : FatView) (i : Nat) : List (List UInt8) :=
  ((longSlots img fat i).take maxLfnParts).map lfnText

section Slots

variable {img : List UInt8} {fat : FatView} {i n : Nat}

/-- A long-name slot is added to the group. -/
theorem longSlots_of_lfn (h : isLfn (slotAt img fat n) = true) :
    longSlots img fat (n + 1) = longSlots img fat n ++ [slotAt img fat n] := by
  rw [longSlots, List.range_succ, List.map_append]
  exact List.rtakeWhile_concat_pos isLfn _ _ h

/-- Any other slot ends the group. -/
theorem longSlots_of_not_lfn (h : isLfn (slotAt img fat n) = false) :
    longSlots img fat (n + 1) = [] := by
  rw [longSlots, List.range_succ, List.map_append]
  exact List.rtakeWhile_concat_neg isLfn _ _ (by rw [h]; exact Bool.false_ne_true)

/-- There are as many parts as slots, as far as there is room. -/
theorem partsBefore_length : (partsBefore img fat n).length
    = min maxLfnParts (longSlots img fat n).length := by
  rw [partsBefore, List.length_map, List.length_take]

/-- **`lfn_parts`** before slot `n`. -/
theorem scanned_parts (img : List UInt8) (fat : FatView) (n : Nat) :
    (scanned img fat n).lfnParts = partsBefore img fat n := by
  induction n with
  | zero => rfl
  | succ n ih =>
    have hslot : slot img (fat.dataOffset + entrySize * n) = slotAt img fat n := rfl
    rw [scanned, slotStep, hslot]
    cases hlfn : isLfn (slotAt img fat n) with
    | true =>
      rw [if_pos rfl, partsBefore, longSlots_of_lfn hlfn, List.take_append]
      rw [ih, partsBefore_length]
      by_cases hroom : (longSlots img fat n).length < maxLfnParts
      · rw [if_pos (by omega), List.take_of_length_le (l := [slotAt img fat n])
          (by rw [List.length_singleton]; omega), List.map_append]
        rfl
      · rw [if_neg (by omega), ih, Nat.sub_eq_zero_of_le (Nat.le_of_not_lt hroom),
          List.take_zero, List.append_nil]
        rfl
    | false =>
      rw [if_neg Bool.false_ne_true, partsBefore, longSlots_of_not_lfn hlfn]
      split
      · rfl
      · rfl

/-- A long-name slot is not the entry of a file. -/
theorem not_file_of_lfn {s : List UInt8} (h : isLfn s = true) : isFile s = false := by
  rw [isLfn, Bool.and_eq_true, beq_iff_eq] at h
  rw [isFile, h.2]
  exact Bool.and_false _

end Slots

/-! ## The list -/

/-- Slot `i` is the entry of a picture that may be reported as `c`. -/
structure Qualifies (img : List UInt8) (fat : FatView) (i : Nat) (c : Candidate) : Prop where
  inside : fat.dataOffset + entrySize * i + entrySize ≤ fat.imageSize
  used : byteAt (slotAt img fat i) 0 ≠ 0
  notDirectory : byteAt (slotAt img fat i) 11 &&& attrDirectory = 0
  archive : byteAt (slotAt img fat i) 11 &&& attrArchive ≠ 0
  name : c.name = nameOf (partsBefore img fat i) (slotAt img fat i)
  cluster : c.cluster = word16 (slotAt img fat i) 20 * 65536 + word16 (slotAt img fat i) 26
  size : c.size = word32 (slotAt img fat i) 28
  safeName : SafeName c.name
  picture : Picture img fat c.cluster c.size

/-- The candidate that slot `i` offers, with the number of the slot. -/
def offered (img : List UInt8) (fat : FatView) (i : Nat) : Option (Nat × Candidate) :=
  if isFile (slotAt img fat i) &&
      recoverable img fat (candidate (partsBefore img fat i) (slotAt img fat i)) then
    some (i, candidate (partsBefore img fat i) (slotAt img fat i))
  else none

/-- What `seen_candidate` looks for. -/
def clashes (a b : Nat × Candidate) : Bool :=
  a.2.cluster == b.2.cluster || strcmp a.2.name b.2.name == 0

/-- The candidates of the first `n` slots. -/
def listed (img : List UInt8) (fat : FatView) (n : Nat) : List (Nat × Candidate) :=
  Greedy.select maxFound clashes ((List.range n).filterMap (offered img fat))

/-- What is promised of a candidate list. -/
structure Complete (img : List UInt8) (fat : FatView) (found : List (Nat × Candidate)) : Prop where
  increasing : (found.map Prod.fst).Pairwise (· < ·)
  sound : ∀ e ∈ found, Qualifies img fat e.1 e.2
  distinct : found.Pairwise fun a b => a.2.cluster ≠ b.2.cluster ∧ a.2.name ≠ b.2.name
  complete : ∀ i c, Qualifies img fat i c → (i, c) ∈ found ∨
    (∃ e ∈ found, e.1 < i ∧ (e.2.cluster = c.cluster ∨ e.2.name = c.name)) ∨
    maxFound ≤ (found.filter fun e => e.1 < i).length

section List

variable {img : List UInt8} {fat : FatView} {i n : Nat}

/-- Two candidates clash if they share the cluster or the name. -/
theorem clashes_iff (a b : Nat × Candidate) :
    clashes a b = true ↔ a.2.cluster = b.2.cluster ∨ a.2.name = b.2.name := by
  rw [clashes, Bool.or_eq_true, beq_iff_eq, beq_iff_eq, strcmp_eq_iff]

/-- A slot offers its candidate, if it has one. -/
theorem listed_succ : listed img fat (n + 1) = match offered img fat n with
    | some e => Greedy.offer maxFound clashes (listed img fat n) e
    | none => listed img fat n := by
  rw [listed, List.range_succ, List.filterMap_append]
  cases h : offered img fat n with
  | none =>
    rw [List.filterMap_cons_none h, List.filterMap_nil, List.append_nil]
    rfl
  | some e =>
    rw [List.filterMap_cons_some h, List.filterMap_nil]
    exact Greedy.select_concat maxFound clashes _ e

/-- **The scan** keeps what a first-come selection keeps. -/
theorem scanned_items (img : List UInt8) (fat : FatView) (n : Nat) :
    (scanned img fat n).items = (listed img fat n).map Prod.snd := by
  induction n with
  | zero => rfl
  | succ n ih =>
    have hslot : slot img (fat.dataOffset + entrySize * n) = slotAt img fat n := rfl
    rw [scanned, slotStep, hslot, scanned_parts, listed_succ, offered]
    generalize hc : candidate (partsBefore img fat n) (slotAt img fat n) = c
    cases hlfn : isLfn (slotAt img fat n) with
    | true =>
      rw [if_pos rfl, not_file_of_lfn hlfn, Bool.false_and, if_neg Bool.false_ne_true]
      split
      · exact ih
      · exact ih
    | false =>
      rw [if_neg Bool.false_ne_true]
      cases hoffer : isFile (slotAt img fat n) && recoverable img fat c with
      | false =>
        rw [Bool.false_and, Bool.false_and, if_neg Bool.false_ne_true, if_neg Bool.false_ne_true]
        exact ih
      | true =>
        have hseen : seenCandidate (scanned img fat n).items c.cluster c.name
            = (listed img fat n).any fun e => clashes e (n, c) := by
          rw [ih, seenCandidate, List.any_map]
          rfl
        have hcount : (scanned img fat n).items.length = (listed img fat n).length := by
          rw [ih, List.length_map]
        rw [Bool.true_and, hcount, hseen, if_pos rfl]
        show _ = (Greedy.offer maxFound clashes (listed img fat n) (n, c)).map Prod.snd
        rw [Greedy.offer]
        split
        · rw [List.map_append, ← ih]
          rfl
        · exact ih

/-- **A slot offers what qualifies at it.**. -/
theorem offered_iff (hi : fat.dataOffset + entrySize * i + entrySize ≤ fat.imageSize)
    (e : Nat × Candidate) : offered img fat i = some e ↔ e.1 = i ∧ Qualifies img fat i e.2 := by
  rw [offered]
  constructor
  · intro h
    by_cases hok : (isFile (slotAt img fat i) &&
        recoverable img fat (candidate (partsBefore img fat i) (slotAt img fat i))) = true
    · rw [if_pos hok] at h
      obtain rfl := Option.some.inj h
      rw [Bool.and_eq_true, isFile, Bool.and_eq_true, Bool.and_eq_true, bne_iff_ne, bne_iff_ne,
        beq_iff_eq, recoverable_iff] at hok
      obtain ⟨⟨⟨hused, hdir⟩, harchive⟩, hname, hpic⟩ := hok
      exact ⟨rfl, hi, hused, hdir, harchive, rfl, rfl, rfl, hname, hpic⟩
    · rw [if_neg hok] at h
      cases h
  · obtain ⟨k, c⟩ := e
    rintro ⟨rfl, hq⟩
    have hc : candidate (partsBefore img fat k) (slotAt img fat k) = c := by
      rw [candidate, ← hq.name, ← hq.cluster, ← hq.size]
    have hfile : isFile (slotAt img fat k) = true := by
      rw [isFile, Bool.and_eq_true, Bool.and_eq_true, bne_iff_ne, bne_iff_ne, beq_iff_eq]
      exact ⟨⟨hq.used, hq.notDirectory⟩, hq.archive⟩
    rw [hc, hfile, (recoverable_iff c).mpr ⟨hq.safeName, hq.picture⟩]
    rfl

/-- A candidate is offered with its slot. -/
theorem offered_fst {e : Nat × Candidate} (h : offered img fat i = some e) : e.1 = i := by
  rw [offered] at h
  split at h
  · obtain rfl := Option.some.inj h
    rfl
  · cases h

/-- What is listed was offered before. -/
theorem mem_listed {e : Nat × Candidate} (he : e ∈ listed img fat n) :
    e.1 < n ∧ offered img fat e.1 = some e := by
  obtain ⟨i, hi, hoffer⟩ := List.mem_filterMap.mp ((Greedy.select_sublist _ _ _).subset he)
  obtain rfl := offered_fst hoffer
  exact ⟨List.mem_range.mp hi, hoffer⟩

/-- The list is in the order of the slots. -/
theorem listed_increasing : ((listed img fat n).map Prod.fst).Pairwise (· < ·) := by
  have hoffers : (((List.range n).filterMap (offered img fat)).map Prod.fst).Pairwise (· < ·) := by
    refine List.pairwise_map.mpr (List.pairwise_filterMap.mpr ?_)
    refine List.Pairwise.imp ?_ List.pairwise_lt_range
    intro i j hij e he e' he'
    rw [offered_fst he, offered_fst he']
    exact hij
  exact hoffers.sublist ((Greedy.select_sublist _ _ _).map Prod.fst)

/-- The candidates of the slots before `i` are those with a smaller number. -/
theorem listed_before (hi : i ≤ n) :
    (listed img fat n).filter (fun e => e.1 < i) = listed img fat i := by
  induction n with
  | zero =>
    rw [Nat.le_zero.mp hi]
    rfl
  | succ n ih =>
    rcases Nat.lt_or_ge n i with hlt | hge
    · obtain rfl := Nat.le_antisymm hi hlt
      exact List.filter_eq_self.mpr fun e he => decide_eq_true (mem_listed he).1
    · rw [listed_succ]
      cases hoffer : offered img fat n with
      | none => exact ih hge
      | some e =>
        have hout : [e].filter (fun e => e.1 < i) = [] := by
          apply List.filter_eq_nil_iff.mpr
          intro x hx
          rw [List.mem_singleton.mp hx, offered_fst hoffer, decide_eq_true_iff]
          exact Nat.not_lt_of_le hge
        show (Greedy.offer maxFound clashes (listed img fat n) e).filter _ = _
        rw [Greedy.offer]
        split
        · rw [List.filter_append, ih hge, hout, List.append_nil]
        · exact ih hge

/-- A slot that qualifies lies before the end of the scan. -/
theorem Qualifies.lt_slotCount {c : Candidate} (h : Qualifies img fat i c)
    (hv : View img fat) : i < slotCount fat := by
  by_contra hge
  exact slot_outside hv.dataOffset_lt (Nat.le_of_not_lt hge) h.inside

/-- What is not listed has its reason. -/
theorem listed_complete (hv : View img fat) : Complete img fat (listed img fat (slotCount fat)) := by
  refine ⟨listed_increasing, fun e he => ?_, ?_, fun i c hq => ?_⟩
  · obtain ⟨hlt, hoffer⟩ := mem_listed he
    exact ((offered_iff (slot_inside hlt) e).mp hoffer).2
  · refine (Greedy.select_pairwise _ _ _).imp fun {a b} hclash => ?_
    exact not_or.mp fun hor => Bool.eq_false_iff.mp hclash ((clashes_iff a b).mpr hor)
  · have hi := hq.lt_slotCount hv
    have hoffer : offered img fat i = some (i, c) := (offered_iff hq.inside (i, c)).mpr ⟨rfl, hq⟩
    have hbefore : (listed img fat (slotCount fat)).filter (fun e => e.1 < i) = listed img fat i :=
      listed_before (Nat.le_of_lt hi)
    obtain ⟨m, hm⟩ := Nat.exists_eq_add_of_lt hi
    have hsplit : (List.range (slotCount fat)).filterMap (offered img fat)
        = (List.range i).filterMap (offered img fat) ++ (i, c) ::
          ((List.range m).map (i + 1 + ·)).filterMap (offered img fat) := by
      rw [hm, Nat.add_right_comm, List.range_add, List.range_succ, List.filterMap_append,
        List.filterMap_append, List.filterMap_cons_some hoffer, List.append_assoc]
      rfl
    have hcomplete := Greedy.select_complete maxFound clashes
      ((List.range i).filterMap (offered img fat))
      (((List.range m).map (i + 1 + ·)).filterMap (offered img fat)) (i, c)
    rw [← hsplit] at hcomplete
    rw [hbefore]
    rcases hcomplete with hin | ⟨e, he, hclash⟩ | hfull
    · exact Or.inl hin
    · refine Or.inr (Or.inl ⟨e, ?_, (mem_listed he).1, (clashes_iff e (i, c)).mp hclash⟩)
      have he : e ∈ listed img fat i := he
      rw [← hbefore] at he
      exact (List.mem_filter.mp he).1
    · exact Or.inr (Or.inr hfull)

end List

/-- **Soundness and completeness** of the candidate list. -/
theorem candidates_complete {img : List UInt8} {fat : FatView}
    (h : initFatView img = some (some fat)) :
    ∃ found : List (Nat × Candidate),
      collectCandidates img fat = some (found.map Prod.snd) ∧ Complete img fat found := by
  have hv := View.of_init h
  refine ⟨listed img fat (slotCount fat), ?_, listed_complete hv⟩
  rw [collectCandidates_eq hv, scanned_items]

/-- A small disk: clusters of 32 bytes, 16 of them reserved, one FAT of one cluster. -/
def disk (data : List UInt8) : List UInt8 :=
  List.replicate 11 0 ++ [32, 0, 1, 16, 0, 1, 0, 0, (17 + data.length / 32).toUInt8] ++
    List.replicate 16 0 ++ [1] ++ List.replicate 473 0 ++ [0x55, 0xaa] ++ List.replicate 32 0 ++ data

/-- An archive entry. -/
def fileEntry (name : List UInt8) (cluster size : UInt8) : List UInt8 :=
  name ++ [0x20] ++ List.replicate 14 0 ++ [cluster, 0, size, 0, 0, 0]

/-- A picture of 64 bytes. -/
def smallBmp : List UInt8 :=
  [66, 77, 64, 0, 0, 0, 0, 0, 0, 0, 54, 0, 0, 0, 40, 0, 0, 0, 0, 0, 0, 0, 0, 0, 0, 0, 1, 0, 24, 0] ++
    List.replicate 34 0

/-- Two entries of one picture. -/
def twins : List UInt8 :=
  disk (fileEntry (ascii "A       BMP") 4 64 ++ fileEntry (ascii "B       BMP") 4 64 ++ smallBmp)

/-- The second one is not listed. -/
theorem candidates_complete_twins :
    collectCandidates twins ⟨672, 32, 544⟩ = some [⟨ascii "a.bmp", 4, 64⟩] ∧
    ∃ found : List (Nat × Candidate),
      collectCandidates twins ⟨672, 32, 544⟩ = some (found.map Prod.snd) ∧
        Complete twins ⟨672, 32, 544⟩ found :=
  ⟨by decide +kernel, candidates_complete (by decide +kernel)⟩

end Fsrecov
