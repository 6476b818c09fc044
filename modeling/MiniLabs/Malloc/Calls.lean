/-
  mymalloc — what the two calls do to the list of blocks.

  1. **Specification** — `extend_spec`, `mymalloc_spec` and `myfree_spec` follow a call through the
     pointer routines of `Malloc.Surgery`.  Each says which list is left, which memory was obtained,
     which headers were written (`Wrote`) and that no block in use was changed or lost.
  2. **What is asked of `vmalloc`** — `Vmalloc`: 0, or page-aligned memory of the length asked for
     that overlaps nothing obtained before and ends within the address space.
  3. **The crux (`Heap.Lands`)** — `extend_heap` hands back the block in front of the new one
     whether or not the two were merged.  `Lands` is the condition under which that does no harm:
     the new memory lies below all blocks, or right behind a free one.  `Heap.Served` asks for it
     only where a call extends the heap.
-/
import MiniLabs.Malloc.Surgery

set_option linter.unusedVariables false

namespace Malloc

open Extents Models

/-! ## Merging, seen from the list -/

/-- Merging leaves a block where it is. -/
theorem mergeNext_addr (a : Blk) (r : List Blk) : (mergeNext a r).1.addr = a.addr := by
  cases r with
  | nil => rfl
  | cons b r =>
    rw [mergeNext]
    split <;> rfl

/-- Merging leaves a block free or in use. -/
theorem mergeNext_free (a : Blk) (r : List Blk) : (mergeNext a r).1.free = a.free := by
  cases r with
  | nil => rfl
  | cons b r =>
    rw [mergeNext]
    split <;> rfl

/-- Merging makes no block smaller. -/
theorem mergeNext_size (a : Blk) (r : List Blk) : a.size ≤ (mergeNext a r).1.size := by
  cases r with
  | nil => exact Nat.le_refl _
  | cons b r =>
    rw [mergeNext]
    split
    · exact Nat.le_add_right _ _
    · exact Nat.le_refl _

/-- No address is new. -/
theorem mergeNext_addrs (a : Blk) (r : List Blk) {x : Nat}
    (h : x ∈ ((mergeNext a r).1 :: (mergeNext a r).2).map Blk.addr) :
    x ∈ (a :: r).map Blk.addr := by
  cases r with
  | nil => exact h
  | cons b r =>
    rw [mergeNext] at h
    split at h
    · rcases List.mem_cons.mp h with rfl | h
      · exact List.mem_cons_self
      · exact List.mem_cons_of_mem _ (List.mem_cons_of_mem _ h)
    · exact h

/-- A block in use behind the merged one stays. -/
theorem mergeNext_keeps (a : Blk) {r : List Blk} {c : Blk} (hc : c ∈ r) (huse : c.free = false) :
    c ∈ (mergeNext a r).2 := by
  cases r with
  | nil => exact absurd hc List.not_mem_nil
  | cons b r =>
    rw [mergeNext]
    split
    · rename_i hcond
      rcases List.mem_cons.mp hc with rfl | hc
      · rw [huse] at hcond
        exact absurd hcond.2.1 (by decide)
      · exact hc
    · exact hc

/-- A block in use absorbs nothing. -/
theorem mergeNext_used {a : Blk} (r : List Blk) (huse : a.free = false) :
    mergeNext a r = (a, r) := by
  cases r with
  | nil => rfl
  | cons b r =>
    rw [mergeNext, if_neg]
    rw [huse]
    exact fun hc => absurd hc.1 (by decide)

/-! ## The headers written -/

/-- Getting from `h` to `h'` only headers in `P` were written. -/
def Wrote (P : Nat → Prop) (h h' : Heap) : Prop :=
  ∃ t, h'.touched = t ++ h.touched ∧ ∀ a ∈ t, P a

section Wrote

variable {P Q : Nat → Prop} {h h' h'' : Heap}

/-- Headers that were touched were written. -/
theorem Heap.Touches.wrote (ht : Heap.Touches P h h') : Wrote P h h' := ht.touched

/-- What two routines write is what either does. -/
theorem Wrote.trans (h₁ : Wrote P h h') (h₂ : Wrote P h' h'') : Wrote P h h'' := by
  obtain ⟨t, ht, hP⟩ := h₁
  obtain ⟨t', ht', hP'⟩ := h₂
  refine ⟨t' ++ t, by rw [ht', ht, List.append_assoc], ?_⟩
  intro a ha
  rcases List.mem_append.mp ha with ha | ha
  · exact hP' a ha
  · exact hP a ha

/-- More may be allowed to be written. -/
theorem Wrote.mono (hPQ : ∀ a, P a → Q a) (ht : Wrote P h h') : Wrote Q h h' := by
  obtain ⟨t, ht, hP⟩ := ht
  exact ⟨t, ht, fun a ha => hPQ a (hP a ha)⟩

end Wrote

/-! ## `extend_heap` -/

/-- The answers `vmalloc` may give: 0, or the first address of a page-aligned region of the
    length asked for that overlaps nothing obtained before. -/
def Vmalloc (h : Heap) (vmalloc : Nat → Nat) : Prop :=
  ∀ len, vmalloc len = 0 ∨
    (vmalloc len % pageSize = 0 ∧ vmalloc len + len ≤ addressSpace ∧
      ∀ x, (Extent.mk (vmalloc len) len).Has x → ¬ Covers id h.obtained x)

/-- The new memory at `r` lies below all blocks, or a free block ends right in front of it. -/
def Lands (bs : List Blk) (r : Nat) : Prop :=
  (∀ b ∈ bs, r < b.addr) ∨ ∃ b ∈ bs, b.free = true ∧ b.stop = r

/-- A block keeps its back pointer when its predecessor absorbs it or not. -/
theorem coalesce_prev {h : Heap} {l r : List Blk} {a b : Blk}
    (hm : Models h (l ++ a :: b :: r)) :
    (coalesceWithNext a.addr h).prev b.addr = a.addr := by
  have hcut : l ++ a :: b :: r = (l ++ [a]) ++ b :: r := by simp
  have hmb : Models h ((l ++ [a]) ++ b :: r) := hcut ▸ hm
  have hprev : h.prev b.addr = a.addr := by
    rw [hmb.prev_eq, back, List.map_append]
    exact List.getLastD_concat
  have hnext : h.next a.addr = b.addr := hm.next_eq
  have hba : b.addr ≠ a.addr := hm.front_ne_addr
  have hnb : h.next b.addr = front r := hmb.next_eq
  have hxb : b.addr ≠ front r := Ne.symm hmb.front_ne_addr
  rw [coalesceWithNext]
  dsimp only
  split
  · simp [hnext, hba, hnb, hxb, hprev]
  · exact hprev

/-- The header that `extend_heap` writes at the start of new memory. -/
def Heap.newBlock (start bytes : Nat) (h : Heap) : Heap :=
  ((((h.obtain ⟨start, bytes⟩).setSize start (wsub bytes sizeofBlock)).setFree start true).setPrev
    start 0).setNext start 0

/-- New memory becomes a block and goes to its place in the list. -/
theorem insert_new {h : Heap} {bs : List Blk} {start bytes : Nat} (hm : Models h bs)
    (h0 : start ≠ 0) (hpage : start % pageSize = 0) (hend : start + bytes ≤ addressSpace)
    (hfresh : ∀ x, (Extent.mk start bytes).Has x → ¬ Covers id h.obtained x)
    (hbytes : bytes % 8 = 0 ∧ chunkSize ≤ bytes ∧ bytes < addressSpace) :
    ∃ l r h', bs = l ++ r ∧ (∀ a ∈ l, a.addr < start ∧ a.stop ≤ start) ∧
      (∀ c ∈ r, start < c.addr) ∧ insertBlock start (h.newBlock start bytes) = some h' ∧
      Models h' (l ++ ⟨start, bytes - sizeofBlock, true⟩ :: r) ∧
      h'.obtained = ⟨start, bytes⟩ :: h.obtained ∧
      Wrote (fun x => x ∈ bs.map Blk.addr ∨ x = start) h h' := by
  obtain ⟨haligned, hchunk, hspace⟩ := hbytes
  obtain ⟨b, hb⟩ : ∃ b : Blk, b = ⟨start, bytes - sizeofBlock, true⟩ := ⟨_, rfl⟩
  have hbfree : b.free = true := by rw [hb]
  have hbsize : b.size = bytes - sizeofBlock := by rw [hb]
  obtain rfl : start = b.addr := by rw [hb]
  rw [← hb]
  have hroom : sizeofBlock ≤ bytes := Nat.le_trans (by decide) hchunk
  have hbwsub : wsub bytes sizeofBlock = b.size := by
    rw [wsub_eq hroom hspace, hbsize]
  have hbext : b.extent = ⟨b.addr, bytes⟩ := by
    have hlen : sizeofBlock + (bytes - sizeofBlock) = bytes := by omega
    rw [Blk.extent, hbsize, hlen]
  have hbstop : b.stop = b.addr + bytes := by
    rw [← Blk.extent_stop, hbext]
    rfl
  -- its place
  rw [← hbext] at hfresh
  obtain ⟨l, r, rfl, hl, hr⟩ := hm.sound.ordered.place (fun b _ => b.extent_pos) b.extent_pos
    (fun y hy hc => hfresh y hy ((hm.sound.covers y).mp hc))
  simp only [Blk.extent_stop] at hl hr
  have hsound : Sound (l ++ b :: r) (b.extent :: h.obtained) := by
    refine hm.sound.insert ?_ (hbstop ▸ hend) (fun a ha => (hl a ha).2) (fun c hc => (hr c hc).2)
    unfold pageSize at hpage
    unfold sizeofBlock chunkSize at *
    unfold minPayload
    omega
  have hgw : Wrote (fun x => x ∈ (l ++ r).map Blk.addr ∨ x = b.addr) h
      (h.newBlock b.addr bytes) := by
    have hstart : b.addr ∈ (l ++ r).map Blk.addr ∨ b.addr = b.addr := Or.inr rfl
    exact (Heap.touches_write hstart _ (h.obtain _)).wrote.trans
      ((Heap.touches_write hstart _ _).wrote.trans ((Heap.touches_write hstart _ _).wrote.trans
        (Heap.touches_write hstart _ _).wrote))
  have hgo : (h.newBlock b.addr bytes).obtained = b.extent :: h.obtained := by
    rw [hbext]
    rfl
  have hheaded : Models.Headed h (h.newBlock b.addr bytes) b := by
    refine ⟨rfl, fun u hu => ?_, ?_⟩
    · simp [Heap.newBlock, hu]
    · simp [Heap.newBlock, hbwsub, hbfree]
  obtain ⟨h', hins, hm', hT⟩ := hm.insert (hgo ▸ hsound) h0 hheaded
  refine ⟨l, r, h', rfl, hl, fun c hc => (hr c hc).1, hins, hm', ?_, ?_⟩
  · rw [hT.obtained, hgo, hbext]
  · refine hgw.trans (hT.wrote.mono fun x hx => ?_)
    simp only [List.map_append, List.map_cons, List.mem_append, List.mem_cons] at hx ⊢
    rcases hx with hx | hx | hx
    · exact Or.inl (Or.inl hx)
    · exact Or.inr hx
    · exact Or.inl (Or.inr hx)

/-- What `extend_heap` leaves when it has got new memory: the block `c` it returns stands in a
    list that has all blocks that were in use. -/
theorem extend_spec {h : Heap} {bs : List Blk} {n size : Nat} {vmalloc : Nat → Nat}
    (hm : Models h bs) (hreq : Request n size) (hv : Vmalloc h vmalloc) :
    (vmalloc (extendBytes size) = 0 ∧ extendHeap size vmalloc h = some (0, h)) ∨
    (vmalloc (extendBytes size) ≠ 0 ∧ ∃ l c r h',
      extendHeap size vmalloc h = some (c.addr, h') ∧ Models h' (l ++ c :: r) ∧
      h'.obtained = ⟨vmalloc (extendBytes size), extendBytes size⟩ :: h.obtained ∧
      Wrote (fun x => x ∈ bs.map Blk.addr ∨ x = vmalloc (extendBytes size)) h h' ∧
      (∀ b ∈ bs, b.free = false → b ∈ l ++ c :: r) ∧
      (Lands bs (vmalloc (extendBytes size)) → c.free = true ∧ size ≤ c.size)) := by
  obtain ⟨haligned, hroom, hchunk, hspace⟩ := extendBytes_spec hreq
  rw [extendHeap]
  dsimp only
  rcases hv (extendBytes size) with h0 | ⟨hpage, hend, hfresh⟩
  · exact Or.inl ⟨h0, if_pos h0⟩
  generalize vmalloc (extendBytes size) = start at *
  by_cases h0 : start = 0
  · exact Or.inl ⟨h0, if_pos h0⟩
  refine Or.inr ⟨h0, ?_⟩
  rw [if_neg h0]
  obtain ⟨l, r, h₁, rfl, hl, hr, hins, hm₁, ho₁, hw₁⟩ :=
    insert_new hm h0 hpage hend hfresh ⟨haligned, hchunk, hspace⟩
  rw [Heap.newBlock] at hins
  rw [hins, Option.map_some]
  -- the new block
  obtain ⟨b, hb⟩ : ∃ b : Blk, b = ⟨start, extendBytes size - sizeofBlock, true⟩ := ⟨_, rfl⟩
  have hbfree : b.free = true := by rw [hb]
  have hbsize : b.size = extendBytes size - sizeofBlock := by rw [hb]
  rw [← hb] at hm₁
  obtain rfl : start = b.addr := by rw [hb]
  rcases List.eq_nil_or_concat l with rfl | ⟨l, a, rfl⟩
  · -- nothing stands in front of the new block
    have hprev : h₁.prev b.addr = 0 := hm₁.prev_eq
    rw [if_neg (fun hne => hne hprev)]
    obtain ⟨hm₂, hT₂⟩ := hm₁.coalesce
    refine ⟨[], (mergeNext b r).1, (mergeNext b r).2, _, ?_, hm₂, hT₂.obtained.trans ho₁, ?_,
      ?_, fun _ => ⟨?_, ?_⟩⟩
    · rw [mergeNext_addr]
    · refine hw₁.trans (hT₂.wrote.mono fun x hx => ?_)
      rcases List.mem_cons.mp hx with hx | hx
      · exact Or.inr hx
      · exact Or.inl hx
    · intro c hc huse
      exact List.mem_cons_of_mem _ (mergeNext_keeps b hc huse)
    · rw [mergeNext_free, hbfree]
    · refine Nat.le_trans ?_ (mergeNext_size b r)
      omega
  · -- the block in front of it is taken, whether or not it was merged with the new one
    rw [List.concat_eq_append] at *
    have hcut : l ++ [a] ++ b :: r = l ++ a :: b :: r := by simp
    have hm₁' : Models h₁ (l ++ a :: b :: r) := hcut ▸ hm₁
    have ha0 : a.addr ≠ 0 := hm₁'.addr_ne (by simp)
    have hprev : h₁.prev b.addr = a.addr := by
      rw [hm₁.prev_eq, back, List.map_append]
      exact List.getLastD_concat
    have hab := hl a (by simp)
    rw [if_pos (show h₁.prev b.addr ≠ 0 from hprev ▸ ha0), hprev, coalesce_prev hm₁']
    obtain ⟨hm₂, hT₂⟩ := hm₁'.coalesce
    obtain ⟨hm₃, hT₃⟩ := hm₂.coalesce
    rw [mergeNext_addr] at hm₃ hT₃
    refine ⟨l, _, _, _, ?_, hm₃, hT₃.obtained.trans (hT₂.obtained.trans ho₁), ?_, ?_, ?_⟩
    · rw [mergeNext_addr, mergeNext_addr]
    · have hsub : ∀ x, x ∈ (a :: b :: r).map Blk.addr →
          x ∈ (l ++ [a] ++ r).map Blk.addr ∨ x = b.addr := by
        intro x hx
        simp only [List.map_append, List.map_cons, List.map_nil, List.mem_append, List.mem_cons,
          List.not_mem_nil, or_false] at hx ⊢
        rcases hx with hx | hx | hx
        · exact Or.inl (Or.inl (Or.inr hx))
        · exact Or.inr hx
        · exact Or.inl (Or.inr hx)
      exact hw₁.trans ((hT₂.wrote.mono hsub).trans
        (hT₃.wrote.mono fun x hx => hsub x (mergeNext_addrs _ _ hx)))
    · intro c hc huse
      have hc' : c ∈ l ∨ c = a ∨ c ∈ r := by
        simpa [or_assoc] using hc
      rcases hc' with hc | rfl | hc
      · exact List.mem_append_left _ hc
      · rw [mergeNext_used _ huse, mergeNext_used _ huse]
        simp
      · refine List.mem_append_right _ (List.mem_cons_of_mem _ (mergeNext_keeps _ ?_ huse))
        exact mergeNext_keeps _ (List.mem_cons_of_mem _ hc) huse
    · intro hlands
      -- the free block that ends at the new memory can only be `a`
      have hmerge : a.free = true ∧ a.stop = b.addr := by
        rcases hlands with hbelow | ⟨d, hd, hdfree, hdstop⟩
        · have hba := hbelow a (by simp)
          have hlt : a.addr < b.addr := hab.1
          omega
        · have hd' : d ∈ l ∨ d = a ∨ d ∈ r := by
            simpa [or_assoc] using hd
          rcases hd' with hdl | rfl | hdr
          · have hord := hm₁'.sound.ordered.around.1 d hdl
            have hlt : a.addr < b.addr := hab.1
            rw [Blk.extent_stop] at hord
            have hle : d.stop ≤ a.addr := hord
            omega
          · exact ⟨hdfree, hdstop⟩
          · have hlt : b.addr < d.addr := hr d hdr
            unfold Blk.stop at hdstop
            omega
      constructor
      · rw [mergeNext_free, mergeNext_free, hmerge.1]
      · refine Nat.le_trans ?_ (mergeNext_size _ _)
        rw [mergeNext, if_pos ⟨hmerge.1, hbfree, hmerge.2⟩, Blk.join]
        dsimp only
        omega

/-! ## `mymalloc` -/

/-- A block is cut behind `n` bytes, and the front of it is taken. -/
def takeBlk (c : Blk) (n : Nat) : List Blk :=
  if c.size < n + sizeofBlock + minPayload then [c.mark false]
  else [⟨c.addr, n, false⟩, ⟨c.addr + sizeofBlock + n, c.size - n - sizeofBlock, true⟩]

/-- The block that is taken keeps its address, and its room for what is asked for. -/
theorem takeBlk_cases (c : Blk) (n : Nat) :
    ∃ c' rest, takeBlk c n = c' :: rest ∧ c'.addr = c.addr ∧ c'.free = false ∧
      (n ≤ c.size → n ≤ c'.size) := by
  rw [takeBlk]
  split
  · exact ⟨c.mark false, [], rfl, rfl, rfl, id⟩
  · exact ⟨_, _, rfl, rfl, rfl, fun _ => Nat.le_refl n⟩

/-- The end of `mymalloc`: the block is cut and taken. -/
theorem take_spec {h : Heap} {l r : List Blk} {c : Blk} {size : Nat} (hm : Models h (l ++ c :: r))
    (haligned : size % 8 = 0) (hleast : minPayload ≤ size)
    (hfits : size + sizeofBlock + minPayload < addressSpace) :
    Models ((splitBlock c.addr size h).setFree c.addr false) (l ++ takeBlk c size ++ r) ∧
      Heap.Touches (· ∈ (l ++ takeBlk c size ++ r).map Blk.addr) h
        ((splitBlock c.addr size h).setFree c.addr false) := by
  obtain ⟨hm', hT⟩ := hm.split haligned hleast hfits
  have hmem : ∀ x, x ∈ (takeBlk c size ++ r).map Blk.addr →
      x ∈ (l ++ takeBlk c size ++ r).map Blk.addr := by
    intro x hx
    rw [List.append_assoc, List.map_append]
    exact List.mem_append_right _ hx
  have hfront : c.addr ∈ (takeBlk c size ++ r).map Blk.addr := by
    obtain ⟨c', rest, hcut, haddr, -⟩ := takeBlk_cases c size
    rw [hcut, ← haddr]
    exact List.mem_cons_self
  have haddrs : (cutBlk c size ++ r).map Blk.addr = (takeBlk c size ++ r).map Blk.addr := by
    rw [cutBlk, takeBlk]
    split <;> rfl
  rw [haddrs] at hT
  refine ⟨?_, (Heap.Touches.mono hmem hT).trans (Heap.touches_write (hmem _ hfront) _ _)⟩
  rw [cutBlk] at hm'
  rw [takeBlk]
  split at hm'
  · rename_i hlt
    rw [if_pos hlt]
    have hcut : l ++ [c] ++ r = l ++ c :: r := by simp
    have hcut' : l ++ [c.mark false] ++ r = l ++ c.mark false :: r := by simp
    rw [hcut] at hm'
    rw [hcut']
    exact hm'.setFree false
  · rename_i hlt
    rw [if_neg hlt]
    have hcut : ∀ a b : Blk, l ++ [a, b] ++ r = l ++ a :: (b :: r) := fun a b => by simp
    rw [hcut] at hm'
    rw [hcut]
    exact hm'.setFree false

/-- A pointer that the list from `heap_head` on runs through. -/
inductive Heap.OnList (h : Heap) : Nat → Prop
  | head : h.head ≠ 0 → h.OnList h.head
  | next {a : Nat} : h.OnList a → h.next a ≠ 0 → h.OnList (h.next a)

/-- The pointers of the list are the addresses of the blocks. -/
theorem Models.onList_iff {h : Heap} {bs : List Blk} (hm : Models h bs) (a : Nat) :
    h.OnList a ↔ ∃ b ∈ bs, b.addr = a := by
  constructor
  · intro hon
    have hfront : ∀ {l r : List Blk}, bs = l ++ r → front r ≠ 0 →
        ∃ b ∈ bs, b.addr = front r := by
      intro l r hbs hne
      obtain ⟨b, hb, hba⟩ := List.mem_map.mp (front_mem hne)
      exact ⟨b, hbs ▸ List.mem_append_right _ hb, hba⟩
    induction hon with
    | head hne =>
      rw [hm.head_eq] at hne ⊢
      exact hfront (l := []) rfl hne
    | next _ hne ih =>
      obtain ⟨b, hb, rfl⟩ := ih
      obtain ⟨l, r, rfl⟩ := List.append_of_mem hb
      rw [hm.next_eq] at hne ⊢
      have hcut : l ++ b :: r = (l ++ [b]) ++ r := by simp
      exact hfront hcut hne
  · rintro ⟨b, hb, rfl⟩
    obtain ⟨l, r, rfl⟩ := List.append_of_mem hb
    -- by induction on the blocks in front, from the last one on
    induction hl : l.length generalizing l b r with
    | zero =>
      obtain rfl := List.eq_nil_of_length_eq_zero hl
      have hhead : h.head = b.addr := hm.head_eq
      rw [← hhead]
      exact .head (hhead ▸ hm.addr_ne (by simp))
    | succ k ih =>
      rcases List.eq_nil_or_concat l with rfl | ⟨l, a, rfl⟩
      · nomatch hl
      · rw [List.concat_eq_append] at *
        have hcut : l ++ [a] ++ b :: r = l ++ a :: (b :: r) := by simp
        have hm' := hcut ▸ hm
        have hprev := ih a l (b :: r) hm' (by simp) (by simpa using hl)
        have hnext : h.next a.addr = b.addr := hm'.next_eq
        rw [← hnext]
        exact hprev.next (hnext ▸ hm.addr_ne (by simp))

/-- New memory that `vmalloc` gave at `r` will be used as it should: it lies below all blocks,
    or a free block ends right in front of it. -/
def Heap.Lands (h : Heap) (r : Nat) : Prop :=
  (∀ b, h.OnList b → r < b) ∨ ∃ b, h.OnList b ∧ h.free b = true ∧ blockEnd b h = r

/-- A request that finds no free block gets new memory, if any, where it is used as it
    should. -/
def Heap.Served (h : Heap) (n : Nat) (vmalloc : Nat → Nat) : Prop :=
  findFreeBlock (requestSize n) h = some 0 →
    vmalloc (extendBytes (requestSize n)) ≠ 0 →
      h.Lands (vmalloc (extendBytes (requestSize n)))

/-- `Lands` on the heap is `Lands` on its list. -/
theorem Models.lands {h : Heap} {bs : List Blk} (hm : Models h bs) {r : Nat} (hr : r ≠ 0)
    (hl : h.Lands r) : Lands bs r := by
  rcases hl with hbelow | ⟨a, hon, hfree, hend⟩
  · exact Or.inl fun b hb => hbelow b.addr ((hm.onList_iff _).mpr ⟨b, hb, rfl⟩)
  · obtain ⟨b, hb, rfl⟩ := (hm.onList_iff a).mp hon
    have hcell := hm.cells b hb
    refine Or.inr ⟨b, hb, hcell.2 ▸ hfree, ?_⟩
    -- a block that ends with the address space ends nowhere else
    have hstop := hm.sound.stop_le hb
    unfold Blk.stop at *
    rw [blockEnd, hcell.1, wadd, wadd, Nat.mod_add_mod] at hend
    rcases Nat.lt_or_eq_of_le hstop with hlt | heq
    · rw [← hend, Nat.mod_eq_of_lt hlt]
    · rw [heq, Nat.mod_self] at hend
      exact absurd hend.symm hr

/-- What a call may have written to: headers of blocks that were or are on the list, and the
    header at the start of new memory. -/
def Headers (h h' : Heap) (bs bs' : List Blk) (x : Nat) : Prop :=
  x ∈ bs.map Blk.addr ∨ x ∈ bs'.map Blk.addr ∨
    ∃ e : Extent, h'.obtained = e :: h.obtained ∧ e.start = x ∧ sizeofBlock ≤ e.len ∧
      ∀ y, e.Has y → ¬ Covers id h.obtained y

/-- The memory obtained after a call: what there was before, perhaps with one region more that
    overlaps none of it. -/
def Grows (h h' : Heap) : Prop :=
  h'.obtained = h.obtained ∨ ∃ e, h'.obtained = e :: h.obtained ∧
    ∀ y, e.Has y → ¬ Covers id h.obtained y

/-- **`mymalloc`** fails and leaves the list as it was, or returns the payload of a block `c` of
    the list that is now in use; if it was served, the block has room for the request and is
    none of those that were in use before. -/
theorem mymalloc_spec {h : Heap} {bs : List Blk} {n : Nat} {vmalloc : Nat → Nat}
    (hm : Models h bs) (hn : NoWrap n) (hv : Vmalloc h vmalloc) :
    mymalloc n vmalloc h = some (0, { h with mallocCount := h.mallocCount + 1 }) ∨
    ∃ l c r h', mymalloc n vmalloc h = some (c.payload, h') ∧ Models h' (l ++ c :: r) ∧
      c.free = false ∧ Grows h h' ∧ Wrote (Headers h h' bs (l ++ c :: r)) h h' ∧
      (h.Served n vmalloc → n ≤ c.size ∧ ∀ b ∈ bs, b.free = false → b ∈ l ++ r) := by
  obtain hreq := requestSize_spec hn
  have hm₀ : Models { h with mallocCount := h.mallocCount + 1 } bs :=
    ⟨hm.ring, hm.cells, hm.sound⟩
  have hfind : findFreeBlock (requestSize n) h = some (firstFit (requestSize n) bs) :=
    hm.find (requestSize n)
  -- what the end of the call makes of the block `c` it takes
  have hend : ∀ {l c r} {g : Heap}, Models g (l ++ c :: r) →
      ∃ c' r', Models ((splitBlock c.addr (requestSize n) g).setFree c.addr false)
          (l ++ c' :: r') ∧
        wadd c.addr sizeofBlock = c'.payload ∧ c.addr ≠ 0 ∧ c'.free = false ∧
        (requestSize n ≤ c.size → requestSize n ≤ c'.size) ∧ (∀ b ∈ r, b ∈ r') ∧
        Heap.Touches (· ∈ (l ++ c' :: r').map Blk.addr) g
          ((splitBlock c.addr (requestSize n) g).setFree c.addr false) := by
    intro l c r g hg
    have hfits : requestSize n + sizeofBlock + minPayload < addressSpace :=
      Nat.lt_of_le_of_lt (by unfold minPayload pageSize; omega) hreq.fits
    obtain ⟨hm', hT⟩ := take_spec hg hreq.aligned hreq.least hfits
    obtain ⟨c', rest, hcut, haddr, hfree, hsize⟩ := takeBlk_cases c (requestSize n)
    have hassoc : l ++ c' :: rest ++ r = l ++ c' :: (rest ++ r) := by simp
    rw [hcut, hassoc] at hm' hT
    have hal := hg.sound.aligned c (by simp)
    have hstop := hg.sound.stop_le (b := c) (by simp)
    refine ⟨c', rest ++ r, hm', ?_, hg.addr_ne (by simp), hfree, hsize,
      fun b hb => List.mem_append_right _ hb, hT⟩
    rw [Blk.payload, haddr, wadd_eq]
    unfold Blk.stop minPayload at *
    omega
  rw [mymalloc]
  dsimp only
  rw [hm₀.find, Option.bind_some]
  rcases firstFit_cases (requestSize n) bs with ⟨h0, -⟩ | ⟨l, b, r, rfl, hfit, hfree, hsize⟩
  · rw [h0, if_pos rfl]
    rcases extend_spec hm₀ hreq hv with ⟨hv0, hext⟩ | ⟨hv0, l, c, r, g, hext, hg, hobt, hw, hkeep, hlands⟩
    · exact Or.inl (by rw [hext]; rfl)
    · obtain ⟨c', r', hm', hpay, hc0, hfree, hsize, hkeep', hT⟩ := hend hg
      have hfresh : ∀ y, (Extent.mk (vmalloc (extendBytes (requestSize n)))
          (extendBytes (requestSize n))).Has y → ¬ Covers id h.obtained y := by
        rcases hv (extendBytes (requestSize n)) with hz | ⟨-, -, hfresh⟩
        · exact absurd hz hv0
        · exact hfresh
      have hobt' := hT.obtained.trans hobt
      refine Or.inr ⟨l, c', r', _, ?_, hm', hfree, Or.inr ⟨_, hobt', hfresh⟩, ?_, ?_⟩
      · rw [hext, Option.map_some]
        dsimp only
        rw [if_neg hc0, hpay]
      · have hlen : sizeofBlock ≤ extendBytes (requestSize n) :=
          Nat.le_trans (by decide) (extendBytes_spec hreq).2.2.1
        have hw' : Wrote (Headers h ((splitBlock c.addr (requestSize n) g).setFree c.addr false)
            bs (l ++ c' :: r')) h g := by
          refine Wrote.mono (fun x hx => ?_) hw
          rcases hx with hx | rfl
          · exact Or.inl hx
          · exact Or.inr (Or.inr ⟨_, hobt', rfl, hlen, hfresh⟩)
        exact hw'.trans (hT.wrote.mono fun x hx => Or.inr (Or.inl hx))
      · intro hserved
        have hl := hm.lands hv0 (hserved (h0 ▸ hfind) hv0)
        obtain ⟨hcfree, hcsize⟩ := hlands hl
        refine ⟨Nat.le_trans hreq.enough (hsize hcsize), fun b hb huse => ?_⟩
        have hmem := hkeep b hb huse
        simp only [List.mem_append, List.mem_cons] at hmem ⊢
        rcases hmem with hmem | rfl | hmem
        · exact Or.inl hmem
        · rw [hcfree] at huse
          nomatch huse
        · exact Or.inr (hkeep' b hmem)
  · have hb0 : b.addr ≠ 0 := hm.addr_ne (by simp)
    obtain ⟨c', r', hm', hpay, -, hfree', hsize', hkeep', hT⟩ := hend hm₀
    rw [hfit, if_neg hb0, Option.map_some]
    dsimp only
    rw [if_neg hb0, hpay]
    refine Or.inr ⟨l, c', r', _, rfl, hm', hfree', Or.inl hT.obtained, ?_, ?_⟩
    · exact hT.wrote.mono fun x hx => Or.inr (Or.inl hx)
    · intro _
      refine ⟨Nat.le_trans hreq.enough (hsize' hsize), fun d hd huse => ?_⟩
      simp only [List.mem_append, List.mem_cons] at hd ⊢
      rcases hd with hd | rfl | hd
      · exact Or.inl hd
      · rw [hfree] at huse
        nomatch huse
      · exact Or.inr (hkeep' d hd)

/-! ## `myfree` -/

/-- The block `a` becomes free, absorbs the next block, and is absorbed by the one in front. -/
def freeBlk (l : List Blk) (a : Blk) (r : List Blk) : List Blk :=
  let m := mergeNext (a.mark true) r
  match l.getLast? with
  | none => m.1 :: m.2
  | some p => l.dropLast ++ (mergeNext p (m.1 :: m.2)).1 :: (mergeNext p (m.1 :: m.2)).2

/-- The first block has nothing in front of it to be merged with. -/
theorem freeBlk_nil (a : Blk) (r : List Blk) : freeBlk [] a r =
    (mergeNext (a.mark true) r).1 :: (mergeNext (a.mark true) r).2 := rfl

/-- A block that is freed is merged with its successor and then with its predecessor. -/
theorem freeBlk_concat (l : List Blk) (p a : Blk) (r : List Blk) :
    freeBlk (l ++ [p]) a r =
      l ++ (mergeNext p ((mergeNext (a.mark true) r).1 :: (mergeNext (a.mark true) r).2)).1 ::
        (mergeNext p ((mergeNext (a.mark true) r).1 :: (mergeNext (a.mark true) r).2)).2 := by
  rw [freeBlk, List.getLast?_concat, List.dropLast_concat]

/-- All other blocks in use stay. -/
theorem freeBlk_keeps {l r : List Blk} (a : Blk) {b : Blk} (hb : b ∈ l ++ r)
    (huse : b.free = false) : b ∈ freeBlk l a r := by
  rcases List.eq_nil_or_concat l with rfl | ⟨l, p, rfl⟩
  · rw [freeBlk_nil]
    exact List.mem_cons_of_mem _ (mergeNext_keeps _ hb huse)
  · rw [List.concat_eq_append] at hb ⊢
    rw [freeBlk_concat]
    have hb' : b ∈ l ∨ b = p ∨ b ∈ r := by
      simpa [or_assoc] using hb
    rcases hb' with hb | rfl | hb
    · exact List.mem_append_left _ hb
    · rw [mergeNext_used _ huse]
      simp
    · refine List.mem_append_right _ (List.mem_cons_of_mem _ (mergeNext_keeps _ ?_ huse))
      exact List.mem_cons_of_mem _ (mergeNext_keeps _ hb huse)

/-- **`myfree`** of the payload of a block on the list. -/
theorem myfree_spec {h : Heap} {l r : List Blk} {a : Blk} (hm : Models h (l ++ a :: r)) :
    Models (myfree (wadd a.addr sizeofBlock) h) (freeBlk l a r) ∧
      Heap.Touches (· ∈ (l ++ a :: r).map Blk.addr) h (myfree (wadd a.addr sizeofBlock) h) := by
  have ha0 : a.addr ≠ 0 := hm.addr_ne (by simp)
  have hal := hm.sound.aligned a (by simp)
  have hstop := hm.sound.stop_le (b := a) (by simp)
  have hlt : a.addr + sizeofBlock < addressSpace := by
    unfold Blk.stop minPayload at *
    omega
  have hsub : wsub (a.addr + sizeofBlock) sizeofBlock = a.addr := by
    rw [wsub_eq (Nat.le_add_left _ _) hlt]
    omega
  rw [wadd_eq hlt, myfree, if_neg (by omega)]
  dsimp only
  rw [hsub]
  have hm₁ := hm.setFree true
  have hT₁ : Heap.Touches (· ∈ (l ++ a :: r).map Blk.addr) h (h.setFree a.addr true) :=
    Heap.touches_write (List.mem_map_of_mem (by simp)) _ _
  obtain ⟨hm₂, hT₂⟩ := hm₁.coalesce
  have hsub₂ : ∀ x, x ∈ (a.mark true :: r).map Blk.addr → x ∈ (l ++ a :: r).map Blk.addr := by
    intro x hx
    rw [List.map_append]
    exact List.mem_append_right _ hx
  have hprev := hm₂.prev_eq
  rw [mergeNext_addr] at hprev
  simp only [Blk.mark_addr] at hm₂ hT₂ hprev
  have hT₁₂ := hT₁.trans (Heap.Touches.mono hsub₂ hT₂)
  rw [hprev]
  rcases List.eq_nil_or_concat l with rfl | ⟨l, p, rfl⟩
  · have h0 : back ([] : List Blk) = 0 := rfl
    rw [if_neg (fun hne => hne h0), freeBlk_nil]
    exact ⟨hm₂, hT₁₂⟩
  · rw [List.concat_eq_append] at *
    have hback : back (l ++ [p]) = p.addr := by
      rw [back, List.map_append]
      exact List.getLastD_concat
    have hp0 : p.addr ≠ 0 := hm.addr_ne (by simp)
    rw [hback, if_pos hp0, freeBlk_concat]
    have hcut : ∀ q s, l ++ [p] ++ q :: s = l ++ p :: (q :: s) := by simp
    obtain ⟨hm₃, hT₃⟩ := (hcut _ _ ▸ hm₂ : Models _ (l ++ p :: (_ :: _))).coalesce
    refine ⟨hm₃, hT₁₂.trans (Heap.Touches.mono ?_ hT₃)⟩
    intro x hx
    rcases List.mem_cons.mp hx with rfl | hx
    · exact List.mem_map_of_mem (by simp)
    · exact hsub₂ x (mergeNext_addrs _ _ hx)

end Malloc
