/-
  fsrecov — pictures recovered from a FAT32 image: `init_fat_view`, `collect_candidates`, `main`.

  1. **State** — an image is the list of the bytes that are mapped.  Strings are lists of bytes
     without their terminator; `lfn_parts` is the list of its first `lfn_count` entries, and the
     candidates are those up to the count.
  2. **Program** — `collectCandidates` goes through the slots one by one with the long-name parts
     met so far; `recover` lists what it has found.
  3. **Faults** — the operations of `Checked` say `none` where the program would read outside the
     image, wrap a `size_t` around, or leave an array, so `none` as the result of a run is a fault.
     Where a function can refuse its input, that is an `Option` inside.
  4. **What is idealised** — `open`, `fstat` and `mmap` succeed, and the mapped bytes do not change
     during a run.  A candidate is a name and a stretch of the image; the digest that `sha1sum_file`
     prints of it is left out.
-/
import MiniLabs.Lib.Checked
import MiniLabs.Lib.Strcmp

set_option linter.unusedVariables false

namespace Fsrecov

open Checked Libc

/-- `ENTRY_SIZE`. -/
def entrySize : Nat := 32

/-- `MAX_NAME`. -/
def maxName : Nat := 256

/-- `MAX_FOUND`. -/
def maxFound : Nat := 4096

/-- `MAX_LFN_PARTS`. -/
def maxLfnParts : Nat := 20

/-- `ATTR_DIRECTORY`. -/
def attrDirectory : UInt8 := 0x10

/-- `ATTR_ARCHIVE`. -/
def attrArchive : UInt8 := 0x20

/-- `ATTR_LFN`. -/
def attrLfn : UInt8 := 0x0f

/-- The bytes of an ASCII string. -/
def ascii (s : String) : List UInt8 := s.toList.map fun c => c.toNat.toUInt8

/-- `candidate_t`. -/
structure Candidate where
  name : List UInt8
  cluster : Nat
  size : Nat
  deriving DecidableEq, Repr

/-- `fat_view_t`; its header is the start of the image. -/
structure FatView where
  imageSize : Nat
  clusterSize : Nat
  dataOffset : Nat
  deriving DecidableEq, Repr

/-! ## `struct fat32hdr` -/

/-- `BPB_BytsPerSec`. -/
def bytsPerSec (img : List UInt8) : Option Nat := u16 img 11

/-- `BPB_SecPerClus`. -/
def secPerClus (img : List UInt8) : Option Nat := (byte img 13).map UInt8.toNat

/-- `BPB_RsvdSecCnt`. -/
def rsvdSecCnt (img : List UInt8) : Option Nat := u16 img 14

/-- `BPB_NumFATs`. -/
def numFATs (img : List UInt8) : Option Nat := (byte img 16).map UInt8.toNat

/-- `BPB_TotSec16`. -/
def totSec16 (img : List UInt8) : Option Nat := u16 img 19

/-- `BPB_TotSec32`. -/
def totSec32 (img : List UInt8) : Option Nat := u32 img 32

/-- `BPB_FATSz32`. -/
def fatSz32 (img : List UInt8) : Option Nat := u32 img 36

/-- `Signature_word`. -/
def signatureWord (img : List UInt8) : Option Nat := u16 img 510

/-- `fat_image_bytes`: the sectors, from the 16-bit field where the 32-bit one is 0, times their
    size. -/
def fatImageBytes (img : List UInt8) : Option Nat :=
  (totSec32 img).bind fun sectors =>
  (if sectors = 0 then totSec16 img else some sectors).bind fun sectors =>
  (bytsPerSec img).bind fun bytes => size (sectors * bytes)

/-- The second half of `init_fat_view`, with the declared size. -/
def layout (img : List UInt8) (declaredSize : Nat) : Option (Option FatView) :=
  (bytsPerSec img).bind fun bytes =>
  (secPerClus img).bind fun perCluster =>
  (rsvdSecCnt img).bind fun reserved =>
  (numFATs img).bind fun fats =>
  (fatSz32 img).bind fun fatSize =>
  (size (bytes * perCluster)).bind fun clusterSize =>
  (size (fats * fatSize)).bind fun fatSectors =>
  (size (reserved + fatSectors)).bind fun sectors =>
  (size (sectors * bytes)).bind fun dataOffset =>
  if clusterSize > 0 ∧ dataOffset < declaredSize then
    some (some ⟨declaredSize, clusterSize, dataOffset⟩)
  else some none

/-- `init_fat_view`: `some none` where it returns false, because the image is too short, a field is
    0, the signature is missing or the declared size does not fit the image. -/
def initFatView (img : List UInt8) : Option (Option FatView) :=
  if img.length < 512 then some none
  else
    (signatureWord img).bind fun signature =>
    (bytsPerSec img).bind fun bytes =>
    (secPerClus img).bind fun perCluster =>
    (numFATs img).bind fun fats =>
    (fatSz32 img).bind fun fatSize =>
    if signature ≠ 0xaa55 ∨ bytes = 0 ∨ perCluster = 0 ∨ fats = 0 ∨ fatSize = 0 then some none
    else
      (fatImageBytes img).bind fun declaredSize =>
      if declaredSize = 0 ∨ declaredSize > img.length then some none
      else layout img declaredSize

/-- `cluster_offset`: a cluster below 2 has no data, and gets the end of the image. -/
def clusterOffset (fat : FatView) (cluster : Nat) : Option Nat :=
  if cluster < 2 then some fat.imageSize
  else (size ((cluster - 2) * fat.clusterSize)).bind fun span => size (fat.dataOffset + span)

/-! ## Names -/

/-- `isalnum`. -/
def isAlnum (c : UInt8) : Bool :=
  (48 ≤ c && c ≤ 57) || (65 ≤ c && c ≤ 90) || (97 ≤ c && c ≤ 122)

/-- `isprint`. -/
def isPrint (c : UInt8) : Bool := 32 ≤ c && c ≤ 126

/-- `tolower`. -/
def toLower (c : UInt8) : UInt8 := if 65 ≤ c && c ≤ 90 then c + 32 else c

/-- `safe_name_char`. -/
def safeNameChar (c : UInt8) : Bool := isAlnum c || c == 45 || c == 95 || c == 46

/-- `strrchr`. -/
def strrchr (ch : UInt8) : List UInt8 → Option (List UInt8)
  | [] => none
  | c :: s =>
    match strrchr ch s with
    | some t => some t
    | none => if c = ch then some (c :: s) else none

/-- `valid_filename`: safe characters only, and what stands from the last dot on is `.bmp` or
    `.BMP`. -/
def validFilename (name : List UInt8) : Bool :=
  if name.length = 0 ∨ name.length ≥ maxName then false
  else if ! name.all safeNameChar then false
  else
    match strrchr 46 name with
    | none => false
    | some dot => strcmp dot (ascii ".bmp") == 0 || strcmp dot (ascii ".BMP") == 0

/-- The places of the characters in a long-name slot. -/
def pos : List Nat := [1, 3, 5, 7, 9, 14, 16, 18, 20, 22, 24, 28, 30]

/-- The loop of `append_lfn_part`, with the places left and the part so far: it ends at `0x0000` or
    `0xffff`, and skips what is not printable ASCII. -/
def appendLoop (img : List UInt8) (entry cap : Nat) : List Nat → List UInt8 → Option (List UInt8)
  | [], part => terminate cap part
  | p :: places, part =>
    if part.length + 1 < cap then
      (u16 img (entry + p)).bind fun ch =>
      if ch = 0x0000 ∨ ch = 0xffff then terminate cap part
      else if ch < 128 ∧ isPrint ch.toUInt8 then
        (push cap part ch.toUInt8).bind fun part => appendLoop img entry cap places part
      else appendLoop img entry cap places part
    else terminate cap part

/-- `append_lfn_part`. -/
def appendLfnPart (img : List UInt8) (entry cap : Nat) : Option (List UInt8) :=
  appendLoop img entry cap pos []

/-- A loop of `short_name`: it copies up to a blank. -/
def shortLoop (img : List UInt8) (dent cap : Nat) (change : UInt8 → UInt8) :
    List Nat → List UInt8 → Option (List UInt8)
  | [], out => some out
  | i :: places, out =>
    (byte img (dent + i)).bind fun ch =>
    if ch ≠ 32 ∧ out.length + 1 < cap then
      (push cap out (change ch)).bind fun out => shortLoop img dent cap change places out
    else some out

/-- What the first loop of `short_name` makes of a byte. -/
def shortChar (ch : UInt8) : UInt8 := toLower (if ch = 0xe5 then 63 else ch)

/-- `short_name`; the string that it leaves ends at the first NUL. -/
def shortName (img : List UInt8) (dent cap : Nat) : Option (List UInt8) :=
  (shortLoop img dent cap shortChar [0, 1, 2, 3, 4, 5, 6, 7] []).bind fun out =>
  (byte img (dent + 8)).bind fun ch =>
  (if ch ≠ 32 ∧ out.length + 1 < cap then push cap out 46 else some out).bind fun out =>
  (shortLoop img dent cap toLower [8, 9, 10] out).bind fun out =>
  (terminate cap out).map fun out => out.takeWhile (· ≠ 0)

/-- `strncat(name, part, sizeof(name) - strlen(name) - 1)`. -/
def appendPart (name part : List UInt8) : Option (List UInt8) :=
  if name.length + 1 ≤ maxName then
    terminate maxName (name ++ part.take (maxName - name.length - 1))
  else none

/-- The loop that joins the parts, from part `i - 1` down. -/
def joinParts (parts : List (List UInt8)) : Nat → List UInt8 → Option (List UInt8)
  | 0, name => some name
  | i + 1, name =>
    (parts[i]?).bind fun part => (appendPart name part).bind fun name => joinParts parts i name

/-- The name that is assembled for an entry. -/
def entryName (img : List UInt8) (lfnParts : List (List UInt8)) (entry : Nat) :
    Option (List UInt8) :=
  if lfnParts.length > 0 then joinParts lfnParts lfnParts.length []
  else shortName img entry maxName

/-! ## `collect_candidates` -/

/-- `bmp_header_ok`: `BM`, the size of the directory entry, pixels behind the header, one plane, 24
    bits. -/
def bmpHeaderOk (img : List UInt8) (p available fileSize : Nat) : Option Bool :=
  if available < 54 ∨ fileSize < 54 ∨ available < fileSize then some false
  else
    (byte img p).bind fun b =>
    (byte img (p + 1)).bind fun m =>
    if b ≠ 66 ∨ m ≠ 77 then some false
    else
      (u32 img (p + 2)).bind fun size =>
      (u32 img (p + 10)).bind fun dataOffset =>
      (u32 img (p + 14)).bind fun dibSize =>
      (u16 img (p + 26)).bind fun planes =>
      (u16 img (p + 28)).bind fun bpp =>
      some (decide (size = fileSize ∧ dataOffset ≥ 54 ∧ dataOffset < fileSize ∧ dibSize ≥ 40 ∧
        planes = 1 ∧ bpp = 24))

/-- `seen_candidate`: a candidate with the same cluster or the same name is there. -/
def seenCandidate (items : List Candidate) (cluster : Nat) (name : List UInt8) : Bool :=
  items.any fun item => item.cluster == cluster || strcmp item.name name == 0

/-- The variables of `collect_candidates`. -/
structure Scan where
  lfnParts : List (List UInt8)
  items : List Candidate
  deriving DecidableEq, Repr

/-- The condition under which a candidate is stored: there is room, the name is valid, the file lies
    inside the image, it begins like a picture, and it has not been seen. -/
def isNew (img : List UInt8) (fat : FatView) (items : List Candidate) (c : Candidate)
    (data : Nat) : Option Bool :=
  if items.length < maxFound ∧ validFilename c.name ∧ c.size > 0 ∧ data < fat.imageSize ∧
      c.size ≤ fat.imageSize - data then
    (bmpHeaderOk img data (fat.imageSize - data) c.size).map fun ok =>
      ok && ! seenCandidate items c.cluster c.name
  else some false

/-- What is done with an archive entry: its name is assembled and it is stored if it is new; either
    way the parts are used up. -/
def collectEntry (img : List UInt8) (fat : FatView) (entry : Nat) (scan : Scan) : Option Scan :=
  (entryName img scan.lfnParts entry).bind fun name =>
  (u16 img (entry + 20)).bind fun hi =>
  (u16 img (entry + 26)).bind fun lo =>
  (u32 img (entry + 28)).bind fun fileSize =>
  (clusterOffset fat (hi * 65536 + lo)).bind fun data =>
  (isNew img fat scan.items ⟨name, hi * 65536 + lo, fileSize⟩ data).bind fun new =>
  if new then
    (push maxFound scan.items ⟨name.take (maxName - 1), hi * 65536 + lo, fileSize⟩).map fun items =>
      ⟨[], items⟩
  else some ⟨[], scan.items⟩

/-- One turn of the loop, at the slot `entry`: a free slot, a long-name slot, a directory or a
    label, or a file.  A deleted slot is looked at like any other. -/
def collectSlot (img : List UInt8) (fat : FatView) (entry : Nat) (scan : Scan) : Option Scan :=
  (byte img entry).bind fun first =>
  if first = 0x00 then some { scan with lfnParts := [] }
  else
    (byte img (entry + 11)).bind fun attr =>
    if attr = attrLfn then
      if scan.lfnParts.length < maxLfnParts then
        (appendLfnPart img entry 14).bind fun part =>
        (push maxLfnParts scan.lfnParts part).map fun parts => { scan with lfnParts := parts }
      else some scan
    else if attr &&& attrDirectory ≠ 0 ∨ attr &&& attrArchive = 0 then
      some { scan with lfnParts := [] }
    else collectEntry img fat entry scan

/-- The loop, from the offset `off`. -/
def collectFrom (img : List UInt8) (fat : FatView) : Nat → Nat → Scan → Option Scan
  | 0, _, _ => none
  | fuel + 1, off, scan =>
    (size (off + entrySize)).bind fun next =>
    if next ≤ fat.imageSize then
      (collectSlot img fat off scan).bind fun scan => collectFrom img fat fuel next scan
    else some scan

/-- `collect_candidates`; there are no more turns than bytes in the image. -/
def collectCandidates (img : List UInt8) (fat : FatView) : Option (List Candidate) :=
  (collectFrom img fat (fat.imageSize + 1) fat.dataOffset ⟨[], []⟩).map fun scan => scan.items

/-! ## `main` -/

/-- A range of the image that is hashed, under a name. -/
structure Recovered where
  name : List UInt8
  off : Nat
  size : Nat
  deriving DecidableEq, Repr

/-- The range of a candidate, which is read to be hashed. -/
def recover (img : List UInt8) (fat : FatView) (c : Candidate) : Option Recovered :=
  (clusterOffset fat c.cluster).bind fun off =>
  if off + c.size ≤ img.length then some ⟨c.name, off, c.size⟩ else none

/-- `main`, up to the checksums. -/
def fsrecov (img : List UInt8) : Option (Option (List Recovered)) :=
  (initFatView img).bind fun view =>
  match view with
  | none => some none
  | some fat =>
    (collectCandidates img fat).bind fun items => (items.mapM (recover img fat)).map some

end Fsrecov
