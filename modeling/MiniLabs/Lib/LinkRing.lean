/-
  Null-terminated doubly linked lists, seen as a ring through the null pointer.

  The `next` pointer of `null` is the head of the list and the last node points on to `null`, so
  every node, the first and the last included, stands between two others.  `Joined x y` says
  that `x` and `y` are linked both ways; nothing is asked of the `prev` pointer of `null`, which
  no program keeps.  Two facts carry all pointer surgery:

  * `Ring.seam`   — the ring is joined at every place where its list is cut in two;
  * `Ring.splice` — a stretch `mid` may be replaced by `mid'` when only the pointers of `mid'`
                    and the two pointers at the seams change: insertion, removal and
                    replacement are instances.
-/
import Mathlib.Data.List.Chain

set_option linter.unusedVariables false

namespace LinkRing

variable {α : Type}

/-- The pointers of all nodes; `nxt null` is the head of the list. -/
structure Links (α : Type) where
  nxt : α → α
  prv : α → α

/-- `x` and `y` are linked both ways. -/
def Links.Joined (L : Links α) (null x y : α) : Prop := L.nxt x = y ∧ (y ≠ null → L.prv y = x)

/-- The nodes `as` make up the list, in this order. -/
structure Ring (L : Links α) (null : α) (as : List α) : Prop where
  nodup : as.Nodup
  fresh : null ∉ as
  chain : (null :: (as ++ [null])).IsChain (L.Joined null)

namespace Ring

variable {L L' : Links α} {null : α}

/-- A list without nodes: null is linked to itself. -/
theorem nil (h : L.nxt null = null) : Ring L null [] where
  nodup := List.nodup_nil
  fresh := List.not_mem_nil
  chain := by
    show [null, null].IsChain _
    exact List.isChain_pair.mpr ⟨h, fun hne => absurd rfl hne⟩

/-- The ring is joined wherever its list is cut in two. -/
theorem seam {l r : List α} (h : Ring L null (l ++ r)) :
    L.Joined null (l.getLastD null) (r.headD null) := by
  have hcut : null :: (l ++ r ++ [null]) = (null :: l) ++ (r ++ [null]) := by
    rw [List.append_assoc, List.cons_append]
  have hc := h.chain
  rw [hcut] at hc
  refine (List.isChain_append.mp hc).2.2 _ ?_ _ ?_
  · rw [List.getLast?_cons, List.getLastD_eq_getLast?]
    exact rfl
  · cases r with
    | nil => exact rfl
    | cons a r => exact rfl

/-- Where a node points to. -/
theorem next {l r : List α} {a : α} (h : Ring L null (l ++ a :: r)) :
    L.nxt a = r.headD null := by
  have h' : Ring L null ((l ++ [a]) ++ r) := by rwa [List.append_assoc]
  have hj := h'.seam.1
  rwa [List.getLastD_concat] at hj

/-- Where a node points back to. -/
theorem prev {l r : List α} {a : α} (h : Ring L null (l ++ a :: r)) :
    L.prv a = l.getLastD null := by
  refine h.seam.2 fun hnull => h.fresh ?_
  rw [← show a = null from hnull]
  exact List.mem_append_right _ List.mem_cons_self

/-- The head of the list. -/
theorem head {as : List α} (h : Ring L null as) : L.nxt null = as.headD null := by
  have hj := (show Ring L null ([] ++ as) from h).seam.1
  exact hj

/-- Linked pairs stay linked when the pointers between them stay. -/
theorem isChain_of_dropLast {R S : α → α → Prop} {as : List α} (h : as.IsChain R)
    (hRS : ∀ u ∈ as.dropLast, ∀ v ∈ as.tail, R u v → S u v) : as.IsChain S := by
  induction as with
  | nil => exact List.IsChain.nil
  | cons a as ih =>
    cases as with
    | nil => exact List.IsChain.singleton a
    | cons b as =>
      rw [List.isChain_cons_cons] at h ⊢
      constructor
      · exact hRS a List.mem_cons_self b List.mem_cons_self h.1
      · refine ih h.2 fun u hu v hv => hRS u ?_ v (List.mem_cons_of_mem _ hv)
        exact List.mem_cons_of_mem _ hu

/-- **Splicing.**  The stretch `mid` between `l` and `r` is replaced by `mid'`: it is enough
    that the new stretch is linked with its two neighbours and that no other pointer of the
    ring has changed. -/
theorem splice {l mid mid' r : List α} (h : Ring L null (l ++ mid ++ r))
    (hnodup : (l ++ mid' ++ r).Nodup) (hfresh : null ∉ mid')
    (hnxt : ∀ u, u ≠ l.getLastD null → u ∉ mid' → L'.nxt u = L.nxt u)
    (hprv : ∀ v, v ≠ r.headD null → v ∉ mid' → L'.prv v = L.prv v)
    (hmid : (l.getLastD null :: (mid' ++ [r.headD null])).IsChain (L'.Joined null)) :
    Ring L' null (l ++ mid' ++ r) := by
  have hnl : null ∉ l := fun hm => h.fresh (by simp [hm])
  have hnr : null ∉ r := fun hm => h.fresh (by simp [hm])
  obtain ⟨hl, hm', hlm⟩ := List.nodup_append.mp (List.nodup_append.mp hnodup).1
  obtain ⟨-, hr, hlr⟩ := List.nodup_append.mp hnodup
  -- the two neighbours of the stretch
  obtain ⟨pre, k, hpre, hk⟩ : ∃ pre k, null :: l = pre ++ [k] ∧ l.getLastD null = k :=
    ⟨_, _, (List.dropLast_append_getLast (List.cons_ne_nil null l)).symm,
      (List.getLast_eq_getLastD (a := null) (l := l) _).symm⟩
  obtain ⟨x, post, hpost, hx⟩ : ∃ x post, r ++ [null] = x :: post ∧ r.headD null = x := by
    cases r with
    | nil => exact ⟨null, [], rfl, rfl⟩
    | cons b r => exact ⟨b, r ++ [null], rfl, rfl⟩
  rw [hk, hx] at hmid
  rw [hk] at hnxt
  rw [hx] at hprv
  have hshape : ∀ m : List α, null :: (l ++ m ++ r ++ [null]) = pre ++ k :: (m ++ x :: post) := by
    intro m
    rw [List.append_assoc, hpost, List.append_assoc, ← List.cons_append, hpre, List.append_assoc]
    rfl
  have hcut : ∀ (R : α → α → Prop) (m : List α), (pre ++ k :: (m ++ x :: post)).IsChain R ↔
      (pre ++ [k]).IsChain R ∧ (k :: (m ++ [x])).IsChain R ∧ (x :: post).IsChain R := by
    intro R m
    rw [List.isChain_split]
    exact and_congr_right fun _ => @List.isChain_split _ R x (k :: m) post
  have hc := h.chain
  rw [hshape, hcut] at hc
  refine ⟨hnodup, ?_, ?_⟩
  · simp only [List.mem_append, not_or]
    exact ⟨⟨hnl, hfresh⟩, hnr⟩
  rw [hshape, hcut]
  refine ⟨isChain_of_dropLast hc.1 ?_, hmid, isChain_of_dropLast hc.2.2 ?_⟩
  · -- a pair in front of the stretch
    intro u hu v hv hj
    rw [List.dropLast_concat] at hu
    rw [← hpre] at hv
    have hnd : (pre ++ [k]).Nodup := hpre ▸ List.nodup_cons.mpr ⟨hnl, hl⟩
    have huk : u ≠ k := (List.nodup_append.mp hnd).2.2 u hu k List.mem_cons_self
    have hum : u ∉ mid' := by
      have hmem : u ∈ null :: l := hpre ▸ List.mem_append_left _ hu
      rcases List.mem_cons.mp hmem with rfl | hul
      · exact hfresh
      · exact fun hm => hlm u hul u hm rfl
    refine ⟨(hnxt u huk hum).trans hj.1, fun hne => (hprv v ?_ ?_).trans (hj.2 hne)⟩
    · rintro rfl
      have hmem : v ∈ r ++ [null] := hpost ▸ List.mem_cons_self
      rcases List.mem_append.mp hmem with hvr | hvn
      · exact hlr v (List.mem_append_left _ hv) v hvr rfl
      · exact hne (List.mem_singleton.mp hvn)
    · exact fun hm => hlm v hv v hm rfl
  · -- a pair behind the stretch
    intro u hu v hv hj
    rw [← hpost, List.dropLast_concat] at hu
    have huk : u ≠ k := by
      rintro rfl
      have hmem : u ∈ null :: l := hpre ▸ List.mem_append_right _ List.mem_cons_self
      rcases List.mem_cons.mp hmem with rfl | hul
      · exact hnr hu
      · exact hlr u (List.mem_append_left _ hul) u hu rfl
    have hum : u ∉ mid' := fun hm => hlr u (List.mem_append_right _ hm) u hu rfl
    refine ⟨(hnxt u huk hum).trans hj.1, fun hne => ?_⟩
    have hvr : v ∈ r.tail := by
      cases r with
      | nil =>
        obtain ⟨-, rfl⟩ := List.cons.inj hpost
        exact absurd hv List.not_mem_nil
      | cons b r =>
        obtain ⟨-, rfl⟩ := List.cons.inj hpost
        rcases List.mem_append.mp hv with hv | hv
        · exact hv
        · exact absurd (List.mem_singleton.mp hv) hne
    refine (hprv v ?_ ?_).trans (hj.2 hne)
    · rintro rfl
      cases r with
      | nil => exact absurd hvr List.not_mem_nil
      | cons b r =>
        obtain ⟨rfl, -⟩ := List.cons.inj hpost
        exact (List.nodup_cons.mp hr).1 hvr
    · exact fun hm => hlr v (List.mem_append_right _ hm) v (List.mem_of_mem_tail hvr) rfl

end Ring
end LinkRing
