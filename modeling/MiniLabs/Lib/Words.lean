/-
  Little-endian 32-bit words as byte lists.

  1. **Two functions** — `le32` is how a machine word lies in memory on the little-endian targets
     the labs are built for; `ofLe32` reads one back.
  2. **Round trip** — the two are inverse on four-byte lists (`ofLe32_le32`, `le32_ofLe32`), and
     `ofLe32` looks at the first four bytes only, so it may be applied to the tail of a longer
     buffer.
-/
import Mathlib.Data.List.Basic

set_option linter.unusedVariables false

namespace Words

/-- The four bytes of a word, least significant first. -/
def le32 (w : UInt32) : List UInt8 :=
  [UInt8.ofNat w.toNat, UInt8.ofNat (w.toNat / 256), UInt8.ofNat (w.toNat / 65536),
    UInt8.ofNat (w.toNat / 16777216)]

/-- The word whose bytes are the first four of `bs` (missing bytes read as zero). -/
def ofLe32 (bs : List UInt8) : UInt32 :=
  UInt32.ofNat ((bs.getD 0 0).toNat + 256 * (bs.getD 1 0).toNat + 65536 * (bs.getD 2 0).toNat
    + 16777216 * (bs.getD 3 0).toNat)

@[simp] theorem length_le32 (w : UInt32) : (le32 w).length = 4 := rfl

/-- Reading back a stored word, whatever bytes follow it. -/
@[simp] theorem ofLe32_le32 (w : UInt32) (s : List UInt8) : ofLe32 (le32 w ++ s) = w := by
  have hw := w.toNat_lt
  apply UInt32.toNat_inj.mp
  simp only [ofLe32, le32, List.cons_append, List.getD_cons_zero, List.getD_cons_succ,
    UInt8.toNat_ofNat', UInt32.toNat_ofNat']
  omega

/-- Storing back a word that was read from four bytes gives those bytes. -/
theorem le32_ofLe32 (a b c d : UInt8) (s : List UInt8) :
    le32 (ofLe32 (a :: b :: c :: d :: s)) = [a, b, c, d] := by
  have ha := a.toNat_lt
  have hb := b.toNat_lt
  have hc := c.toNat_lt
  have hd := d.toNat_lt
  simp only [ofLe32, le32, List.getD_cons_zero, List.getD_cons_succ, UInt32.toNat_ofNat',
    List.cons.injEq, and_true]
  refine ⟨?_, ?_, ?_, ?_⟩ <;> apply UInt8.toNat_inj.mp <;> rw [UInt8.toNat_ofNat'] <;> omega

/-- A word is determined by its four bytes. -/
theorem le32_inj {v w : UInt32} (h : le32 v = le32 w) : v = w := by
  have hv := ofLe32_le32 v []
  rw [h, ofLe32_le32] at hv
  exact hv.symm

end Words
