/-
  What the functions of fsrecov return when nothing goes wrong.

  1. **Total forms** — a slot is 32 bytes of the image.  Each function has its total form here, on
     the slot instead of an offset: `lfnText`, `shortText`, `nameOf`, `recoverable`, `slotStep`.
  2. **The bridge** — the lemmas `_eq` say that the checked function returns it, under `View`, what
     `init_fat_view` makes sure of.
  3. **The crux (`collectCandidates_eq`)** — `scanned img fat n` is the state after `n` slots; the
     candidates are read off it, and with this the scan never leaves its bounds.
-/
import MiniLabs.Fsrecov.Code

set_option linter.unusedVariables false

namespace Fsrecov

open Checked Libc

/-- The slot at an offset. -/
def slot (img : List UInt8) (off : Nat) : List UInt8 := (img.drop off).take entrySize

/-- A byte of a slot is a byte of the image. -/
theorem byteAt_slot {img : List UInt8} {off k : Nat} (hk : k < entrySize) :
    byteAt (slot img off) k = byteAt img (off + k) := by
  rw [byteAt, byteAt, List.getD_eq_getElem?_getD, List.getD_eq_getElem?_getD, slot,
    List.getElem?_take_of_lt hk, List.getElem?_drop]

/-- So are two. -/
theorem word16_slot {img : List UInt8} {off k : Nat} (hk : k + 1 < entrySize) :
    word16 (slot img off) k = word16 img (off + k) :=
  word16_congr (byteAt_slot (Nat.lt_of_succ_lt hk)) (byteAt_slot hk)

/-- And four. -/
theorem word32_slot {img : List UInt8} {off k : Nat} (hk : k + 3 < entrySize) :
    word32 (slot img off) k = word32 img (off + k) := by
  rw [word32, word32, word16_slot (by omega), word16_slot (by omega)]
  rfl

/-! ## Parts of long names -/

/-- The characters that `append_lfn_part` keeps of the words it reads. -/
def textOf (chars : List Nat) : List UInt8 :=
  ((chars.takeWhile fun ch => ch != 0x0000 && ch != 0xffff).filter fun ch =>
    decide (ch < 128) && isPrint ch.toUInt8).map Nat.toUInt8

/-- The part of a name in a long-name slot. -/
def lfnText (s : List UInt8) : List UInt8 := textOf (pos.map (word16 s))

/-- The text ends at a terminator, and leaves out what is not printable. -/
theorem textOf_cons (ch : Nat) (chars : List Nat) :
    textOf (ch :: chars) =
      if ch = 0x0000 ∨ ch = 0xffff then []
      else if ch < 128 ∧ isPrint ch.toUInt8 then ch.toUInt8 :: textOf chars
      else textOf chars := by
  by_cases hend : ch = 0x0000 ∨ ch = 0xffff
  · rw [if_pos hend, textOf, List.takeWhile_cons_of_neg (by simpa using fun h => hend.resolve_left h)]
    rfl
  · obtain ⟨h0, hf⟩ := not_or.mp hend
    rw [if_neg hend, textOf, List.takeWhile_cons_of_pos (by simp [h0, hf])]
    by_cases hkeep : ch < 128 ∧ isPrint ch.toUInt8
    · rw [if_pos hkeep, List.filter_cons_of_pos (by simp [hkeep.1, hkeep.2])]
      rfl
    · rw [if_neg hkeep, List.filter_cons_of_neg (by simpa using hkeep)]
      rfl

section Names

variable {img : List UInt8} {entry cap : Nat}

/-- **The loop over the characters of a part**, inside the image and the array. -/
theorem appendLoop_eq (himg : entry + entrySize ≤ img.length) (places : List Nat)
    (hplaces : ∀ p ∈ places, p + 1 < entrySize) (part : List UInt8)
    (hroom : part.length + places.length < cap) :
    appendLoop img entry cap places part
      = some (part ++ textOf (places.map fun p => word16 (slot img entry) p)) := by
  induction places generalizing part with
  | nil =>
    rw [appendLoop, terminate_eq (by simpa using hroom), List.map_nil]
    exact congrArg some (List.append_nil part).symm
  | cons p places ih =>
    have hp := hplaces p List.mem_cons_self
    have hrest : ∀ q ∈ places, q + 1 < entrySize := fun q hq => hplaces q (List.mem_cons_of_mem _ hq)
    rw [List.length_cons] at hroom
    rw [appendLoop, if_pos (by omega), u16_eq (by omega), Option.bind_some, List.map_cons,
      textOf_cons, word16_slot hp]
    by_cases hend : word16 img (entry + p) = 0x0000 ∨ word16 img (entry + p) = 0xffff
    · rw [if_pos hend, if_pos hend, terminate_eq (by omega), List.append_nil]
    · rw [if_neg hend, if_neg hend]
      by_cases hkeep : word16 img (entry + p) < 128 ∧ isPrint (word16 img (entry + p)).toUInt8
      · rw [if_pos hkeep, if_pos hkeep, push_eq (by omega), Option.bind_some, ih hrest]
        · rw [List.append_assoc, List.singleton_append]
        · rw [List.length_append, List.length_singleton]
          omega
      · rw [if_neg hkeep, if_neg hkeep]
        exact ih hrest part (by omega)

/-- The characters of a part lie inside of the slot. -/
theorem pos_lt : ∀ p ∈ pos, p + 1 < entrySize := by decide

/-- **`append_lfn_part`.** -/
theorem appendLfnPart_eq (himg : entry + entrySize ≤ img.length) :
    appendLfnPart img entry 14 = some (lfnText (slot img entry)) := by
  rw [appendLfnPart, appendLoop_eq himg pos pos_lt [] (by decide)]
  rfl

/-! ## Names -/

/-- The lower-cased 8.3 name of an entry. -/
def shortText (s : List UInt8) : List UInt8 :=
  let base := (([0, 1, 2, 3, 4, 5, 6, 7].map (byteAt s)).takeWhile (· ≠ 32)).map shortChar
  let dot := if byteAt s 8 ≠ 32 then [46] else []
  let extension := (([8, 9, 10].map (byteAt s)).takeWhile (· ≠ 32)).map toLower
  (base ++ dot ++ extension).takeWhile (· ≠ 0)

/-- The parts of a long name, joined, the last one first. -/
def joined (parts : List (List UInt8)) : List UInt8 := parts.reverse.flatten.take (maxName - 1)

/-- The name of an entry. -/
def nameOf (parts : List (List UInt8)) (s : List UInt8) : List UInt8 :=
  if parts.length > 0 then joined parts else shortText s

/-- **The loop over a short name**, inside the image and the array. -/
theorem shortLoop_eq (himg : entry + entrySize ≤ img.length) (change : UInt8 → UInt8)
    (places : List Nat) (hplaces : ∀ i ∈ places, i < entrySize) (out : List UInt8)
    (hroom : out.length + places.length < cap) :
    shortLoop img entry cap change places out
      = some (out ++ ((places.map (byteAt (slot img entry))).takeWhile (· ≠ 32)).map change) := by
  induction places generalizing out with
  | nil => exact congrArg some (List.append_nil out).symm
  | cons i places ih =>
    have hi := hplaces i List.mem_cons_self
    have hrest : ∀ q ∈ places, q < entrySize := fun q hq => hplaces q (List.mem_cons_of_mem _ hq)
    rw [List.length_cons] at hroom
    rw [shortLoop, byte_eq (by omega), Option.bind_some, List.map_cons, byteAt_slot hi]
    by_cases hblank : byteAt img (entry + i) = 32
    · rw [if_neg (fun h => h.1 hblank), List.takeWhile_cons_of_neg (by simp [hblank]),
        List.map_nil, List.append_nil]
    · rw [if_pos ⟨hblank, by omega⟩, push_eq (by omega), Option.bind_some, ih hrest,
        List.takeWhile_cons_of_pos (by simp [hblank]), List.map_cons, List.append_assoc,
        List.singleton_append]
      rw [List.length_append, List.length_singleton]
      omega

/-- No more characters are copied than there are places. -/
theorem copied_length (places : List Nat) (s : List UInt8) (change : UInt8 → UInt8) :
    (((places.map (byteAt s)).takeWhile (· ≠ 32)).map change).length ≤ places.length := by
  rw [List.length_map]
  have h := (List.takeWhile_prefix (l := places.map (byteAt s)) (· ≠ 32)).length_le
  rwa [List.length_map] at h

/-- **`short_name`.** -/
theorem shortName_eq (himg : entry + entrySize ≤ img.length) :
    shortName img entry maxName = some (shortText (slot img entry)) := by
  have hbase := copied_length [0, 1, 2, 3, 4, 5, 6, 7] (slot img entry) shortChar
  rw [shortName, shortLoop_eq himg shortChar _ (by decide) [] (by decide), Option.bind_some,
    List.nil_append]
  generalize hb : (([0, 1, 2, 3, 4, 5, 6, 7].map (byteAt (slot img entry))).takeWhile
    (· ≠ 32)).map shortChar = base at hbase
  have hlen : base.length ≤ 8 := hbase
  have h8 : byteAt (slot img entry) 8 = byteAt img (entry + 8) := byteAt_slot (by decide)
  have hdot : (if byteAt img (entry + 8) ≠ 32 ∧ base.length + 1 < maxName then
        push maxName base 46 else some base)
      = some (base ++ if byteAt (slot img entry) 8 ≠ 32 then [46] else []) := by
    rw [h8]
    have hroom : base.length + 1 < maxName := by
      rw [maxName]
      omega
    by_cases hne : byteAt img (entry + 8) ≠ 32
    · rw [if_pos ⟨hne, hroom⟩, if_pos hne, push_eq (by omega)]
    · rw [if_neg fun h => hne h.1, if_neg hne, List.append_nil]
  rw [byte_eq (by rw [entrySize] at himg; omega), Option.bind_some, hdot, Option.bind_some]
  have hout : shortText (slot img entry)
      = ((base ++ if byteAt (slot img entry) 8 ≠ 32 then [46] else []) ++
        (([8, 9, 10].map (byteAt (slot img entry))).takeWhile (· ≠ 32)).map toLower).takeWhile
          (· ≠ 0) := by
    rw [shortText, hb]
  have hdotlen : (base ++ if byteAt (slot img entry) 8 ≠ 32 then [46] else []).length ≤ 9 := by
    rw [List.length_append]
    split
    · rw [List.length_singleton]
      omega
    · rw [List.length_nil]
      omega
  generalize base ++ (if byteAt (slot img entry) 8 ≠ 32 then [46] else []) = out at hdotlen hout ⊢
  have hroom : out.length + [8, 9, 10].length < maxName :=
    Nat.lt_of_le_of_lt (Nat.add_le_add_right hdotlen _) (by decide)
  rw [shortLoop_eq himg toLower [8, 9, 10] (by decide) out hroom, Option.bind_some, terminate_eq,
    Option.map_some, hout]
  rw [List.length_append]
  exact Nat.lt_of_le_of_lt (Nat.add_le_add_left (copied_length _ _ _) _) hroom

/-- A part is appended as far as there is room. -/
theorem appendPart_eq {name : List UInt8} (part : List UInt8) (hname : name.length ≤ maxName - 1) :
    appendPart name part = some ((name ++ part).take (maxName - 1)) := by
  have hlen : name.length ≤ 255 := hname
  have htake : (name ++ part).take (maxName - 1)
      = name ++ part.take (maxName - name.length - 1) := by
    rw [List.take_append, List.take_of_length_le hname, Nat.sub_right_comm]
  rw [appendPart, if_pos (by rw [maxName]; omega), htake, terminate_eq]
  rw [List.length_append, List.length_take, maxName]
  omega

/-- What is cut at the first step is cut at the second as well. -/
theorem take_append_cut {α : Type} (n : Nat) (xs ys : List α) :
    ((xs.take n) ++ ys).take n = (xs ++ ys).take n := by
  rw [List.take_append, List.take_append, List.take_take, Nat.min_self, List.length_take]
  rcases Nat.le_total n xs.length with h | h
  · rw [Nat.min_eq_left h, Nat.sub_self, Nat.sub_eq_zero_of_le h]
  · rw [Nat.min_eq_right h]

/-- **The parts of a name are joined**, the last one first, as far as there is room. -/
theorem joinParts_eq (parts : List (List UInt8)) {i : Nat} (hi : i ≤ parts.length)
    {name : List UInt8} (hname : name.length ≤ maxName - 1) :
    joinParts parts i name
      = some ((name ++ (parts.take i).reverse.flatten).take (maxName - 1)) := by
  induction i generalizing name with
  | zero =>
    rw [joinParts, List.take_zero, List.reverse_nil, List.flatten_nil, List.append_nil,
      List.take_of_length_le hname]
  | succ i ih =>
    have hget : parts[i]? = some parts[i] := List.getElem?_eq_getElem hi
    rw [joinParts, hget, Option.bind_some, appendPart_eq _ hname, Option.bind_some,
      ih (Nat.le_of_succ_le hi) (List.length_take_le _ _), take_append_cut, List.append_assoc,
      List.take_succ_eq_append_getElem hi, List.reverse_append, List.reverse_singleton,
      List.singleton_append, List.flatten_cons]

/-- **The name of an entry.** -/
theorem entryName_eq (parts : List (List UInt8)) (himg : entry + entrySize ≤ img.length) :
    entryName img parts entry = some (nameOf parts (slot img entry)) := by
  rw [entryName, nameOf]
  by_cases h : parts.length > 0
  · rw [if_pos h, if_pos h, joinParts_eq parts (Nat.le_refl _) (Nat.zero_le _), List.take_length,
      List.nil_append]
    rfl
  · rw [if_neg h, if_neg h]
    exact shortName_eq himg

end Names

/-! ## The view -/

/-- What `init_fat_view` makes sure of. -/
structure View (img : List UInt8) (fat : FatView) : Prop where
  inside : fat.imageSize ≤ img.length
  imageSize_lt : fat.imageSize < 2 ^ 48
  clusterSize_pos : 0 < fat.clusterSize
  clusterSize_lt : fat.clusterSize < 2 ^ 24
  dataOffset_lt : fat.dataOffset < fat.imageSize

/-- The offset of a cluster. -/
def dataAt (fat : FatView) (cluster : Nat) : Nat :=
  if cluster < 2 then fat.imageSize else fat.dataOffset + (cluster - 2) * fat.clusterSize

section Layout

variable {img : List UInt8} {fat : FatView}

/-- The declared size fits a `size_t`. -/
theorem fatImageBytes_eq (himg : 512 ≤ img.length) :
    ∃ sectors, sectors < 2 ^ 32 ∧
      fatImageBytes img = some (sectors * word16 img 11) ∧ sectors * word16 img 11 < 2 ^ 48 := by
  have hbytes := word16_lt img 11
  have hsectors : ∃ sectors, sectors < 2 ^ 32 ∧
      (if word32 img 32 = 0 then totSec16 img else some (word32 img 32)) = some sectors := by
    by_cases h : word32 img 32 = 0
    · rw [if_pos h, totSec16, u16_eq (by omega)]
      exact ⟨_, Nat.lt_trans (word16_lt img 19) (by decide), rfl⟩
    · rw [if_neg h]
      exact ⟨_, word32_lt img 32, rfl⟩
  obtain ⟨sectors, hlt, hsome⟩ := hsectors
  have hmul : sectors * word16 img 11 < 2 ^ 48 := by
    have := Nat.mul_le_mul (Nat.le_of_lt_succ (Nat.lt_succ_of_lt hlt)) (Nat.le_of_lt hbytes)
    rcases Nat.eq_zero_or_pos (word16 img 11) with hzero | hpos
    · rw [hzero, Nat.mul_zero]
      decide
    · calc sectors * word16 img 11 < 2 ^ 32 * word16 img 11 := Nat.mul_lt_mul_of_pos_right hlt hpos
        _ ≤ 2 ^ 32 * 2 ^ 16 := Nat.mul_le_mul_left _ (Nat.le_of_lt hbytes)
        _ = 2 ^ 48 := by decide
  refine ⟨sectors, hlt, ?_, hmul⟩
  rw [fatImageBytes, totSec32, u32_eq (by omega), Option.bind_some, hsome, Option.bind_some,
    bytsPerSec, u16_eq (by omega), Option.bind_some, size_eq (Nat.lt_trans hmul (by decide))]

/-- **`init_fat_view`** stays inside, and what it accepts is a view. -/
theorem initFatView_eq (img : List UInt8) :
    ∃ view, initFatView img = some view ∧ ∀ fat, view = some fat → View img fat ∧
      fatImageBytes img = some fat.imageSize := by
  rw [initFatView]
  by_cases hshort : img.length < 512
  · rw [if_pos hshort]
    exact ⟨none, rfl, fun fat h => by cases h⟩
  · rw [if_neg hshort]
    have himg : 512 ≤ img.length := Nat.le_of_not_lt hshort
    have hbytes : bytsPerSec img = some (word16 img 11) := u16_eq (by omega)
    have hper : secPerClus img = some (byteAt img 13).toNat := by
      rw [secPerClus, byte_eq (by omega)]
      rfl
    have hfats : numFATs img = some (byteAt img 16).toNat := by
      rw [numFATs, byte_eq (by omega)]
      rfl
    have hfatSize : fatSz32 img = some (word32 img 36) := u32_eq (by omega)
    have hreserved : rsvdSecCnt img = some (word16 img 14) := u16_eq (by omega)
    rw [signatureWord, u16_eq (by omega), Option.bind_some, hbytes, Option.bind_some, hper,
      Option.bind_some, hfats, Option.bind_some, hfatSize, Option.bind_some]
    split
    · exact ⟨none, rfl, fun fat h => by cases h⟩
    · obtain ⟨sectors, hsec, hdeclared, hlt⟩ := fatImageBytes_eq himg
      rw [hdeclared, Option.bind_some]
      generalize sectors * word16 img 11 = declared at hlt hdeclared ⊢
      by_cases hno : declared = 0 ∨ declared > img.length
      · rw [if_pos hno]
        exact ⟨none, rfl, fun fat h => by cases h⟩
      · rw [if_neg hno, layout, hbytes, Option.bind_some, hper, Option.bind_some, hreserved,
          Option.bind_some, hfats, Option.bind_some, hfatSize, Option.bind_some]
        have hb := word16_lt img 11
        have hp := (byteAt img 13).toNat_lt
        have hr := word16_lt img 14
        have hf := (byteAt img 16).toNat_lt
        have hz := word32_lt img 36
        generalize word16 img 11 = bytes at hb ⊢
        generalize (byteAt img 13).toNat = perCluster at hp ⊢
        generalize word16 img 14 = reserved at hr ⊢
        generalize (byteAt img 16).toNat = fats at hf ⊢
        generalize word32 img 36 = fatSize at hz ⊢
        have hcluster : bytes * perCluster < 2 ^ 24 := by
          calc bytes * perCluster ≤ (2 ^ 16 - 1) * (2 ^ 8 - 1) :=
                Nat.mul_le_mul (by omega) (by omega)
            _ < 2 ^ 24 := by decide
        have hspan : fats * fatSize < 2 ^ 40 := by
          calc fats * fatSize ≤ (2 ^ 8 - 1) * (2 ^ 32 - 1) := Nat.mul_le_mul (by omega) (by omega)
            _ < 2 ^ 40 := by decide
        have hdata : (reserved + fats * fatSize) * bytes < 2 ^ 57 := by
          calc (reserved + fats * fatSize) * bytes ≤ (2 ^ 16 + 2 ^ 40) * (2 ^ 16 - 1) :=
                Nat.mul_le_mul (by omega) (by omega)
            _ < 2 ^ 57 := by decide
        rw [size_eq (by omega), Option.bind_some, size_eq (by omega), Option.bind_some,
          size_eq (by omega), Option.bind_some, size_eq (by omega), Option.bind_some]
        by_cases hfit : bytes * perCluster > 0 ∧ (reserved + fats * fatSize) * bytes < declared
        · rw [if_pos hfit]
          refine ⟨_, rfl, fun fat h => ?_⟩
          obtain rfl := Option.some.inj h
          exact ⟨⟨by show declared ≤ _; omega, hlt, hfit.1, hcluster, hfit.2⟩, rfl⟩
        · rw [if_neg hfit]
          exact ⟨none, rfl, fun fat h => by cases h⟩

/-- An image that is accepted is a view. -/
theorem View.of_init (h : initFatView img = some (some fat)) : View img fat := by
  obtain ⟨view, hview, hok⟩ := initFatView_eq img
  exact (hok fat (Option.some.inj (hview.symm.trans h))).1

/-- **`cluster_offset`** does not wrap around. -/
theorem clusterOffset_eq (hv : View img fat) {cluster : Nat} (hc : cluster < 2 ^ 32) :
    clusterOffset fat cluster = some (dataAt fat cluster) := by
  rw [clusterOffset, dataAt]
  by_cases h : cluster < 2
  · rw [if_pos h, if_pos h]
  · have hspan : (cluster - 2) * fat.clusterSize < 2 ^ 56 := by
      have hsize := hv.clusterSize_lt
      calc (cluster - 2) * fat.clusterSize ≤ (2 ^ 32 - 1) * (2 ^ 24 - 1) :=
            Nat.mul_le_mul (by omega) (by omega)
        _ < 2 ^ 56 := by decide
    have hstart := Nat.lt_trans hv.dataOffset_lt hv.imageSize_lt
    rw [if_neg h, if_neg h, size_eq (by omega), Option.bind_some, size_eq (by omega)]

end Layout

/-! ## The scan -/

/-- The header of a picture of this size stands at `p`, and the whole of it is there. -/
def isBmp (img : List UInt8) (p available fileSize : Nat) : Bool :=
  decide (54 ≤ fileSize ∧ fileSize ≤ available ∧ byteAt img p = 66 ∧ byteAt img (p + 1) = 77 ∧
    word32 img (p + 2) = fileSize ∧ 54 ≤ word32 img (p + 10) ∧ word32 img (p + 10) < fileSize ∧
    40 ≤ word32 img (p + 14) ∧ word16 img (p + 26) = 1 ∧ word16 img (p + 28) = 24)

/-- A candidate that may be stored. -/
def recoverable (img : List UInt8) (fat : FatView) (c : Candidate) : Bool :=
  validFilename c.name && decide (dataAt fat c.cluster < fat.imageSize) &&
    isBmp img (dataAt fat c.cluster) (fat.imageSize - dataAt fat c.cluster) c.size

/-- The candidate of an entry. -/
def candidate (parts : List (List UInt8)) (s : List UInt8) : Candidate :=
  ⟨nameOf parts s, word16 s 20 * 65536 + word16 s 26, word32 s 28⟩

/-- A slot of a long name. -/
def isLfn (s : List UInt8) : Bool := byteAt s 0 != 0 && byteAt s 11 == attrLfn

/-- A slot with an archive entry that is no directory. -/
def isFile (s : List UInt8) : Bool :=
  byteAt s 0 != 0 && byteAt s 11 &&& attrDirectory == 0 && byteAt s 11 &&& attrArchive != 0

/-- One turn of the loop. -/
def slotStep (img : List UInt8) (fat : FatView) (s : List UInt8) (scan : Scan) : Scan :=
  if isLfn s then
    if scan.lfnParts.length < maxLfnParts then
      { scan with lfnParts := scan.lfnParts ++ [lfnText s] }
    else scan
  else if isFile s && recoverable img fat (candidate scan.lfnParts s) &&
      decide (scan.items.length < maxFound) &&
      ! seenCandidate scan.items (candidate scan.lfnParts s).cluster
        (candidate scan.lfnParts s).name then
    ⟨[], scan.items ++ [candidate scan.lfnParts s]⟩
  else ⟨[], scan.items⟩

/-- The state after `n` slots. -/
def scanned (img : List UInt8) (fat : FatView) : Nat → Scan
  | 0 => ⟨[], []⟩
  | n + 1 => slotStep img fat (slot img (fat.dataOffset + entrySize * n)) (scanned img fat n)

/-- The number of full slots. -/
def slotCount (fat : FatView) : Nat := (fat.imageSize - fat.dataOffset) / entrySize

section Scan

variable {img : List UInt8} {fat : FatView} {off entry : Nat} {scan : Scan}

/-- The header of a picture is read inside the image. -/
theorem bmpHeaderOk_eq {p available fileSize : Nat} (h : p + available ≤ img.length) :
    bmpHeaderOk img p available fileSize = some (isBmp img p available fileSize) := by
  rw [bmpHeaderOk]
  by_cases hsize : available < 54 ∨ fileSize < 54 ∨ available < fileSize
  · rw [if_pos hsize, isBmp, decide_eq_false]
    rintro ⟨h54, hle, -⟩
    omega
  · rw [if_neg hsize, byte_eq (by omega), Option.bind_some, byte_eq (by omega), Option.bind_some]
    by_cases hmagic : byteAt img p ≠ 66 ∨ byteAt img (p + 1) ≠ 77
    · rw [if_pos hmagic, isBmp, decide_eq_false]
      rintro ⟨-, -, hb, hm, -⟩
      exact hmagic.elim (fun hne => hne hb) (fun hne => hne hm)
    · rw [if_neg hmagic, u32_eq (by omega), Option.bind_some, u32_eq (by omega), Option.bind_some,
        u32_eq (by omega), Option.bind_some, u16_eq (by omega), Option.bind_some, u16_eq (by omega),
        Option.bind_some, isBmp]
      obtain ⟨hb, hm⟩ := not_or.mp hmagic
      have hb := not_not.mp hb
      have hm := not_not.mp hm
      refine congrArg some (decide_eq_decide.mpr ?_)
      constructor
      · rintro ⟨h₁, h₂, h₃, h₄, h₅, h₆⟩
        exact ⟨by omega, by omega, hb, hm, h₁, h₂, h₃, h₄, h₅, h₆⟩
      · rintro ⟨-, -, -, -, h⟩
        exact h

/-- A name that is accepted fits the array. -/
theorem validFilename_length {name : List UInt8} (h : validFilename name = true) :
    0 < name.length ∧ name.length ≤ maxName - 1 := by
  rw [validFilename] at h
  by_cases hlen : name.length = 0 ∨ name.length ≥ maxName
  · rw [if_pos hlen] at h
    cases h
  · rw [maxName] at hlen ⊢
    omega

/-- A candidate is checked without a fault. -/
theorem isNew_eq (hv : View img fat) (items : List Candidate) (c : Candidate) :
    isNew img fat items c (dataAt fat c.cluster)
      = some (recoverable img fat c && decide (items.length < maxFound) &&
        ! seenCandidate items c.cluster c.name) := by
  have hin := hv.inside
  rw [isNew, recoverable]
  by_cases hcond : items.length < maxFound ∧ validFilename c.name ∧ c.size > 0 ∧
      dataAt fat c.cluster < fat.imageSize ∧ c.size ≤ fat.imageSize - dataAt fat c.cluster
  · rw [if_pos hcond]
    obtain ⟨hcount, hname, -, hdata, -⟩ := hcond
    rw [bmpHeaderOk_eq (by omega), Option.map_some, hname, decide_eq_true hdata,
      decide_eq_true hcount, Bool.true_and, Bool.true_and, Bool.and_true]
  · rw [if_neg hcond]
    refine congrArg some (Eq.symm (Bool.eq_false_iff.mpr fun h => hcond ?_))
    rw [Bool.and_eq_true, Bool.and_eq_true, Bool.and_eq_true, Bool.and_eq_true, decide_eq_true_iff,
      decide_eq_true_iff, isBmp, decide_eq_true_iff] at h
    obtain ⟨⟨⟨⟨hname, hdata⟩, hbmp⟩, hcount⟩, -⟩ := h
    exact ⟨hcount, hname, by omega, hdata, hbmp.2.1⟩

/-- The two halves of a cluster number. -/
theorem word_cluster_lt (s : List UInt8) : word16 s 20 * 65536 + word16 s 26 < 2 ^ 32 := by
  have h₁ := word16_lt s 20
  have h₂ := word16_lt s 26
  omega

/-- **An archive entry.** -/
theorem collectEntry_eq (hv : View img fat) (himg : entry + entrySize ≤ fat.imageSize) :
    collectEntry img fat entry scan
      = some (let c := candidate scan.lfnParts (slot img entry)
        if recoverable img fat c && decide (scan.items.length < maxFound) &&
            ! seenCandidate scan.items c.cluster c.name then
          ⟨[], scan.items ++ [c]⟩
        else ⟨[], scan.items⟩) := by
  have hin : entry + entrySize ≤ img.length := Nat.le_trans himg hv.inside
  have hin' : entry + 32 ≤ img.length := hin
  have hhi : word16 (slot img entry) 20 = word16 img (entry + 20) := word16_slot (by decide)
  have hlo : word16 (slot img entry) 26 = word16 img (entry + 26) := word16_slot (by decide)
  have hsize : word32 (slot img entry) 28 = word32 img (entry + 28) := word32_slot (by decide)
  rw [collectEntry, entryName_eq scan.lfnParts hin, Option.bind_some, u16_eq (by omega),
    Option.bind_some, u16_eq (by omega), Option.bind_some, u32_eq (by omega), Option.bind_some,
    ← hhi, ← hlo, ← hsize, clusterOffset_eq hv (word_cluster_lt _), Option.bind_some]
  dsimp only
  generalize hc : candidate scan.lfnParts (slot img entry) = c
  have hcand : (⟨nameOf scan.lfnParts (slot img entry),
      word16 (slot img entry) 20 * 65536 + word16 (slot img entry) 26,
      word32 (slot img entry) 28⟩ : Candidate) = c := hc
  have hcluster : word16 (slot img entry) 20 * 65536 + word16 (slot img entry) 26 = c.cluster := by
    rw [← hcand]
  have hname : nameOf scan.lfnParts (slot img entry) = c.name := by rw [← hcand]
  have hsz : word32 (slot img entry) 28 = c.size := by rw [← hcand]
  rw [hcluster, hname, hsz, isNew_eq hv, Option.bind_some]
  cases hnew : recoverable img fat c && decide (scan.items.length < maxFound) &&
      ! seenCandidate scan.items c.cluster c.name with
  | false => rfl
  | true =>
    rw [Bool.and_eq_true, Bool.and_eq_true, decide_eq_true_iff, recoverable, Bool.and_eq_true,
      Bool.and_eq_true] at hnew
    have hlen := (validFilename_length hnew.1.1.1.1).2
    rw [if_pos rfl, if_pos rfl, push_eq hnew.1.2, List.take_of_length_le hlen]
    rfl

/-- **One turn of the loop.** -/
theorem collectSlot_eq (hv : View img fat) (himg : entry + entrySize ≤ fat.imageSize) :
    collectSlot img fat entry scan = some (slotStep img fat (slot img entry) scan) := by
  have hin : entry + entrySize ≤ img.length := Nat.le_trans himg hv.inside
  have hin' : entry + 32 ≤ img.length := hin
  have h0 : byteAt (slot img entry) 0 = byteAt img entry := byteAt_slot (by decide)
  have h11 : byteAt (slot img entry) 11 = byteAt img (entry + 11) := byteAt_slot (by decide)
  rw [collectSlot, byte_eq (by omega), Option.bind_some, slotStep, isLfn, isFile, h0, h11]
  by_cases hzero : byteAt img entry = 0
  · rw [if_pos hzero, hzero, if_neg (by simp), if_neg (by simp)]
  · rw [if_neg hzero, byte_eq (by omega), Option.bind_some]
    have hused : (byteAt img entry != 0) = true := by simpa using hzero
    rw [hused, Bool.true_and, Bool.true_and]
    by_cases hlfn : byteAt img (entry + 11) = attrLfn
    · rw [if_pos hlfn, if_pos (beq_iff_eq.mpr hlfn)]
      by_cases hroom : scan.lfnParts.length < maxLfnParts
      · rw [if_pos hroom, if_pos hroom, appendLfnPart_eq hin, Option.bind_some, push_eq hroom]
        rfl
      · rw [if_neg hroom, if_neg hroom]
    · have hno : ¬ (byteAt img (entry + 11) == attrLfn) = true := by simpa using hlfn
      rw [if_neg hlfn, if_neg hno]
      by_cases hother : byteAt img (entry + 11) &&& attrDirectory ≠ 0 ∨
          byteAt img (entry + 11) &&& attrArchive = 0
      · have hfile : (byteAt img (entry + 11) &&& attrDirectory == 0 &&
            byteAt img (entry + 11) &&& attrArchive != 0) = false := by
          rcases hother with hdir | harchive
          · rw [beq_eq_false_iff_ne.mpr hdir, Bool.false_and]
          · rw [harchive, bne_self_eq_false, Bool.and_false]
        rw [if_pos hother, hfile]
        rfl
      · obtain ⟨hdir, harchive⟩ := not_or.mp hother
        have hfile : (byteAt img (entry + 11) &&& attrDirectory == 0 &&
            byteAt img (entry + 11) &&& attrArchive != 0) = true := by
          rw [not_not.mp hdir, beq_self_eq_true, Bool.true_and]
          exact bne_iff_ne.mpr harchive
        rw [if_neg hother, collectEntry_eq hv himg, hfile, Bool.true_and]

/-- The slots that are counted lie inside the declared size. -/
theorem slot_inside {n : Nat} (hn : n < slotCount fat) :
    fat.dataOffset + entrySize * n + entrySize ≤ fat.imageSize := by
  have h : entrySize * (n + 1) ≤ fat.imageSize - fat.dataOffset := by
    have := Nat.mul_le_of_le_div entrySize (n + 1) (fat.imageSize - fat.dataOffset) hn
    rwa [Nat.mul_comm] at this
  rw [entrySize] at h ⊢
  omega

/-- The next one does not. -/
theorem slot_outside {n : Nat} (hdata : fat.dataOffset < fat.imageSize) (hn : slotCount fat ≤ n) :
    ¬ fat.dataOffset + entrySize * n + entrySize ≤ fat.imageSize := by
  intro h
  have hdiv : n + 1 ≤ slotCount fat := by
    apply (Nat.le_div_iff_mul_le (by decide)).mpr
    rw [entrySize] at h ⊢
    omega
  omega

/-- **The loop** goes through the slots, and ends. -/
theorem collectFrom_eq (hv : View img fat) {fuel n : Nat} (hn : n ≤ slotCount fat)
    (hfuel : slotCount fat - n < fuel) :
    collectFrom img fat fuel (fat.dataOffset + entrySize * n) (scanned img fat n)
      = some (scanned img fat (slotCount fat)) := by
  induction fuel generalizing n with
  | zero => exact absurd hfuel (Nat.not_lt_zero _)
  | succ fuel ih =>
    have hlt := hv.imageSize_lt
    have hend : fat.dataOffset + entrySize * n ≤ fat.imageSize := by
      have hmul : entrySize * n ≤ fat.imageSize - fat.dataOffset :=
        Nat.le_trans (Nat.mul_le_mul_left _ hn) (Nat.mul_div_le _ _)
      have := hv.dataOffset_lt
      omega
    rw [collectFrom, size_eq (by rw [entrySize] at hend ⊢; omega), Option.bind_some]
    rcases Nat.lt_or_ge n (slotCount fat) with hlast | hdone
    · have hin := slot_inside hlast
      have hnext : fat.dataOffset + entrySize * n + entrySize
          = fat.dataOffset + entrySize * (n + 1) := by
        rw [Nat.mul_succ, Nat.add_assoc]
      rw [if_pos hin, collectSlot_eq hv hin, Option.bind_some, hnext]
      exact ih hlast (by omega)
    · rw [if_neg (slot_outside hv.dataOffset_lt hdone), Nat.le_antisymm hn hdone]

/-- **`collect_candidates`.** -/
theorem collectCandidates_eq (hv : View img fat) :
    collectCandidates img fat = some (scanned img fat (slotCount fat)).items := by
  have hcount : slotCount fat ≤ fat.imageSize :=
    Nat.le_trans (Nat.div_le_self _ _) (Nat.sub_le _ _)
  have hfuel : slotCount fat - 0 < fat.imageSize + 1 := by omega
  have hloop := collectFrom_eq hv (Nat.zero_le _) hfuel
  rw [Nat.mul_zero, Nat.add_zero] at hloop
  have hloop : collectFrom img fat (fat.imageSize + 1) fat.dataOffset ⟨[], []⟩ = _ := hloop
  rw [collectCandidates, hloop]
  rfl

end Scan

end Fsrecov
