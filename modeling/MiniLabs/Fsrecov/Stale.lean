/-
  What stands before a long-name group, and the name of its entry.

  1. **Specification** — `overwrite` puts other bytes in place of the slots before a group; the name
     of the entry behind the group should stay what it was.
  2. **When it does (`group_name_kept`)** — as long as the slot directly before the group is not a
     long-name slot, the name is the group's own.
  3. **When it does not (`orphan_joins`)** — the scan does not compare sequence numbers or
     checksums, so a long-name slot that touches the group is taken for a part of it.
-/
import MiniLabs.Fsrecov.LongNames

set_option linter.unusedVariables false

namespace Fsrecov

open Checked Libc

/-- The checksum of a short name that its long-name slots carry. -/
def checksum (name : List UInt8) : UInt8 :=
  name.foldl (fun sum ch => (sum <<< 7) + (sum >>> 1) + ch) 0

/-- A complete group of `n` long-name slots from slot `i` on, and its entry. -/
structure LongGroup (img : List UInt8) (fat : FatView) (i n : Nat) : Prop where
  number : ∀ k < n, (byteAt (slotAt img fat (i + k)) 0).toNat = if k = 0 then n ||| 0x40 else n - k
  attr : ∀ k < n, byteAt (slotAt img fat (i + k)) 11 = attrLfn
  check : ∀ k < n,
    byteAt (slotAt img fat (i + k)) 13 = checksum ((slotAt img fat (i + n)).take 11)
  inside : fat.dataOffset + entrySize * (i + n) + entrySize ≤ fat.imageSize
  entry : isFile (slotAt img fat (i + n)) = true
  nonempty : 0 < n

/-- The name that is assembled for the entry in slot `k`. -/
def assembled (img : List UInt8) (fat : FatView) (k : Nat) : Option (List UInt8) :=
  entryName img (scanned img fat k).lfnParts (fat.dataOffset + entrySize * k)

/-- Other bytes from `off` on. -/
def overwrite (img : List UInt8) (off : Nat) (before : List UInt8) : List UInt8 :=
  img.take off ++ before ++ img.drop (off + before.length)

section Overwrite

variable {img before : List UInt8} {fat : FatView} {i n off : Nat}

/-- The image keeps its length. -/
theorem overwrite_length (h : off + before.length ≤ img.length) :
    (overwrite img off before).length = img.length := by
  rw [overwrite, List.length_append, List.length_append, List.length_take, List.length_drop]
  omega

/-- Behind the new bytes nothing changes. -/
theorem slot_overwrite (h : off + before.length ≤ img.length) {p : Nat}
    (hp : off + before.length ≤ p) : slot (overwrite img off before) p = slot img p := by
  have hfront : (img.take off ++ before).length = off + before.length := by
    rw [List.length_append, List.length_take]
    omega
  rw [slot, slot, overwrite, List.drop_append, hfront, List.drop_eq_nil_of_le (hfront ▸ hp),
    List.nil_append, List.drop_drop, Nat.add_sub_cancel' hp]

/-- The slots behind stay as they were. -/
theorem slotAt_overwrite (hlen : before.length = entrySize * i)
    (hin : fat.dataOffset + entrySize * i ≤ img.length) {k : Nat} (hk : i ≤ k) :
    slotAt (overwrite img fat.dataOffset before) fat k = slotAt img fat k := by
  rw [← hlen] at hin
  apply slot_overwrite hin
  rw [hlen]
  exact Nat.add_le_add_left (Nat.mul_le_mul_left _ hk) _

/-- An image that is overwritten in its data is a view still. -/
theorem View.overwrite (hv : View img fat) (h : off + before.length ≤ img.length) :
    View (overwrite img off before) fat :=
  ⟨overwrite_length h ▸ hv.inside, hv.imageSize_lt, hv.clusterSize_pos, hv.clusterSize_lt,
    hv.dataOffset_lt⟩

/-- The slots of a group are long-name slots. -/
theorem LongGroup.isLfn (hg : LongGroup img fat i n) {k : Nat} (hk : k < n) :
    Fsrecov.isLfn (slotAt img fat (i + k)) = true := by
  rw [Fsrecov.isLfn, Bool.and_eq_true, bne_iff_ne, beq_iff_eq]
  refine ⟨fun hzero => ?_, hg.attr k hk⟩
  have hnumber := hg.number k hk
  rw [hzero] at hnumber
  by_cases hfirst : k = 0
  · rw [if_pos hfirst] at hnumber
    have hbit : 0x40 ≤ n ||| 0x40 := Nat.right_le_or
    rw [← hnumber] at hbit
    exact absurd hbit (by decide)
  · rw [if_neg hfirst] at hnumber
    have hzero : (0 : UInt8).toNat = 0 := rfl
    omega

/-- The slots of a group are the same behind other bytes. -/
theorem LongGroup.overwrite (hg : LongGroup img fat i n) (hlen : before.length = entrySize * i)
    (hin : fat.dataOffset + entrySize * i ≤ img.length) :
    LongGroup (overwrite img fat.dataOffset before) fat i n := by
  have hslot : ∀ k, slotAt (Fsrecov.overwrite img fat.dataOffset before) fat (i + k)
      = slotAt img fat (i + k) := fun k => slotAt_overwrite hlen hin (Nat.le_add_right i k)
  refine ⟨fun k hk => ?_, fun k hk => ?_, fun k hk => ?_, hg.inside, ?_, hg.nonempty⟩
  · rw [hslot]
    exact hg.number k hk
  · rw [hslot]
    exact hg.attr k hk
  · rw [hslot, hslot]
    exact hg.check k hk
  · rw [hslot]
    exact hg.entry

/-- The name that is assembled is that of the parts before the entry. -/
theorem assembled_eq (hv : View img fat) {k : Nat}
    (hin : fat.dataOffset + entrySize * k + entrySize ≤ fat.imageSize) :
    assembled img fat k = some (nameOf (partsBefore img fat k) (slotAt img fat k)) := by
  rw [assembled, scanned_parts, entryName_eq _ (Nat.le_trans hin hv.inside)]
  rfl

/-- **The name of a group** behind a slot of another kind is its own. -/
theorem LongGroup.assembled (hv : View img fat) (hg : LongGroup img fat i n)
    (hfresh : Fresh img fat i) :
    assembled img fat (i + n) = some (joined ((ownParts img fat i n).take maxLfnParts)) := by
  have hparts := partsBefore_run hfresh fun k hk => hg.isLfn hk
  have hlen : 0 < ((ownParts img fat i n).take maxLfnParts).length := by
    have hn := hg.nonempty
    have hmax : 0 < maxLfnParts := by decide
    rw [List.length_take, ownParts, List.length_map, List.length_range]
    omega
  rw [assembled_eq hv hg.inside, hparts, nameOf, if_pos hlen]

/-- **Stale slots** that do not touch the group leave its name alone. -/
theorem group_name_kept (h : initFatView img = some (some fat)) (hg : LongGroup img fat i n)
    (hlen : before.length = entrySize * i) (hfresh : Fresh img fat i)
    (hfresh' : Fresh (overwrite img fat.dataOffset before) fat i) :
    assembled img fat (i + n) = some (joined ((ownParts img fat i n).take maxLfnParts)) ∧
    assembled (overwrite img fat.dataOffset before) fat (i + n) = assembled img fat (i + n) := by
  have hv := View.of_init h
  have hin : fat.dataOffset + entrySize * i ≤ img.length := by
    have h₁ := hg.inside
    have h₂ := hv.inside
    rw [entrySize] at h₁ ⊢
    omega
  have hv' : View (overwrite img fat.dataOffset before) fat := hv.overwrite (hlen ▸ hin)
  have hown : ownParts (overwrite img fat.dataOffset before) fat i n = ownParts img fat i n := by
    rw [ownParts, ownParts]
    apply List.map_congr_left
    intro k hk
    rw [slotAt_overwrite hlen hin (Nat.le_add_right i k)]
  have hname := hg.assembled hv hfresh
  refine ⟨hname, ?_⟩
  rw [(hg.overwrite hlen hin).assembled hv' hfresh', hown, hname]

end Overwrite

/-- A group of one slot in slot 1, its entry and its picture. -/
def tidy : List UInt8 :=
  disk (List.replicate 32 0 ++ lfnSlot 0x41 (checksum (ascii "A       BMP")) (ascii "a.bmp") ++
    fileEntry (ascii "A       BMP") 5 64 ++ smallBmp)

/-- The group of the tidy image. -/
theorem tidy_group : LongGroup tidy ⟨704, 32, 544⟩ 1 1 :=
  ⟨by decide +kernel, by decide +kernel, by decide +kernel, by decide, by decide +kernel, by decide⟩

theorem group_name_kept_tidy :
    assembled tidy ⟨704, 32, 544⟩ (1 + 1) = some (ascii "a.bmp") ∧
    assembled (overwrite tidy 544 (List.replicate 32 7)) ⟨704, 32, 544⟩ (1 + 1)
      = assembled tidy ⟨704, 32, 544⟩ (1 + 1) :=
  ⟨by decide +kernel, (group_name_kept (by decide +kernel) tidy_group (by decide)
    (by decide +kernel) (by decide +kernel)).2⟩

/-- An orphaned slot that touches the group joins its name. -/
theorem orphan_joins :
    ¬ ∀ (img : List UInt8) (fat : FatView) (i n : Nat) (before : List UInt8),
      initFatView img = some (some fat) → LongGroup img fat i n →
      before.length = entrySize * i →
      assembled (overwrite img fat.dataOffset before) fat (i + n) = assembled img fat (i + n) := by
  intro h
  have hsame := h tidy ⟨704, 32, 544⟩ 1 1 (lfnSlot 0xe5 0 (ascii "ghost")) (by decide +kernel)
    tidy_group (by decide)
  have hother : assembled (overwrite tidy 544 (lfnSlot 0xe5 0 (ascii "ghost"))) ⟨704, 32, 544⟩ 2
      = some (ascii "a.bmpghost") := by decide +kernel
  have hown : assembled tidy ⟨704, 32, 544⟩ 2 = some (ascii "a.bmp") := by decide +kernel
  rw [hown, hother] at hsame
  exact absurd hsame (by decide)

end Fsrecov
