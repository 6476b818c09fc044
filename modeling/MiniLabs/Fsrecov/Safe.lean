/-
  Recovery is safe on every image.

  1. **Specification** — a run of `fsrecov` that returns `some` has read inside the image, stored
     inside its arrays and computed no size that wraps around.  `InRange` is that the range of a
     candidate is inside the declared size.
  2. **The crux (`recovery_safe`)** — every run is so, whatever the bytes of the image are: an image
     that `init_fat_view` accepts is a `View`, under which every slot and every header of a
     candidate lies inside.
-/
import MiniLabs.Fsrecov.Listing

set_option linter.unusedVariables false

namespace Fsrecov

open Checked Libc

variable {img : List UInt8} {fat : FatView}

/-- The range of a picture, as `cluster_offset` computes it. -/
theorem Picture.range (hv : View img fat) {cluster size : Nat} (hlt : cluster < 2 ^ 32)
    (h : Picture img fat cluster size) :
    clusterOffset fat cluster = some (dataAt fat cluster) ∧
      dataAt fat cluster + size ≤ fat.imageSize :=
  ⟨clusterOffset_eq hv hlt, h.inside⟩

/-- A cluster number has 32 bits. -/
theorem Qualifies.cluster_lt {i : Nat} {c : Candidate} (h : Qualifies img fat i c) :
    c.cluster < 2 ^ 32 := by
  rw [h.cluster]
  exact word_cluster_lt _

/-- What is promised of a candidate. -/
structure InRange (fat : FatView) (c : Candidate) : Prop where
  name : c.name.length < maxName
  cluster : 2 ≤ c.cluster
  range : ∃ off, clusterOffset fat c.cluster = some off ∧ off + c.size ≤ fat.imageSize

/-- All candidates are in range. -/
theorem collected_inRange (hv : View img fat) :
    ∃ items, collectCandidates img fat = some items ∧ items.length ≤ maxFound ∧
      ∀ c ∈ items, InRange fat c := by
  refine ⟨_, collectCandidates_eq hv, ?_, ?_⟩
  · rw [scanned_items, List.length_map]
    exact Greedy.select_length _ _ _
  · intro c hc
    rw [scanned_items] at hc
    obtain ⟨e, he, rfl⟩ := List.mem_map.mp hc
    have hq := (listed_complete hv).sound e he
    have hshort := hq.safeName.short
    refine ⟨?_, hq.picture.cluster_ge, _, hq.picture.range hv hq.cluster_lt⟩
    rw [maxName]
    omega

/-- A candidate in range can be recovered. -/
theorem recover_inRange (hv : View img fat) {c : Candidate} (h : InRange fat c) :
    ∃ r, recover img fat c = some r := by
  obtain ⟨off, hoff, hin⟩ := h.range
  rw [recover, hoff, Option.bind_some, if_pos (Nat.le_trans hin hv.inside)]
  exact ⟨_, rfl⟩

/-- **Recovery is safe** on every image. -/
theorem recovery_safe (img : List UInt8) :
    (∃ result, fsrecov img = some result) ∧
    (∃ view, initFatView img = some view ∧ ∀ fat, view = some fat →
      fatImageBytes img = some fat.imageSize ∧ fat.imageSize ≤ img.length ∧
      ∃ items, collectCandidates img fat = some items ∧ items.length ≤ maxFound ∧
        ∀ c ∈ items, InRange fat c) := by
  obtain ⟨view, hview, haccepted⟩ := initFatView_eq img
  constructor
  · rw [fsrecov, hview, Option.bind_some]
    cases view with
    | none => exact ⟨none, rfl⟩
    | some fat =>
      obtain ⟨hv, -⟩ := haccepted fat rfl
      obtain ⟨items, hitems, -, hrange⟩ := collected_inRange hv
      show ∃ result, (collectCandidates img fat).bind _ = some result
      rw [hitems, Option.bind_some]
      have hall : ∃ found, items.mapM (recover img fat) = some found := by
        clear hitems
        induction items with
        | nil => exact ⟨[], rfl⟩
        | cons c items ih =>
          obtain ⟨r, hr⟩ := recover_inRange hv (hrange c List.mem_cons_self)
          obtain ⟨rs, hrs⟩ := ih fun d hd => hrange d (List.mem_cons_of_mem _ hd)
          exact ⟨r :: rs, by rw [List.mapM_cons, hr, hrs]; rfl⟩
      obtain ⟨found, hfound⟩ := hall
      rw [hfound]
      exact ⟨some found, rfl⟩
  · refine ⟨view, hview, fun fat hfat => ?_⟩
    obtain ⟨hv, hbytes⟩ := haccepted fat hfat
    exact ⟨hbytes, hv.inside, collected_inRange hv⟩

end Fsrecov
