/-
  mymalloc — the two calls, statement by statement.

  1. **Program** — `Malloc.Code` has the calls as functions of the heap.  Here is what they do
     between `spin_lock` and `spin_unlock` as a machine: a `Place` is what is left to do, and
     `Place.step` stores to one header, or goes one round of a loop, or takes one branch.  The stores
     of a routine that stand one behind the other are a list (`Place.store`).
  2. **Specification** — the functions of `Malloc.Code`: from its start the machine gets to the
     pointer and the heap of the function (`malloc_runs`, `free_runs`), and where the list runs in a
     circle, for which the function is `none`, it gets to `Place.circle` and stays there.
  3. **The crux (`store_runs`)** — a list of stores comes to the composition of what it stores, so a
     routine without a loop is one unfolding; the two loops over the list are inductions over their
     rounds (`find_runs`, `search_runs`).
  4. **What is idealised** — a loop takes as many rounds as there are addresses before it counts as
     a circle, as in `Malloc.Code`; a field of a header is stored in one step; `vmalloc` is one step.
-/
import MiniLabs.Lib.Stepping
import MiniLabs.Malloc.Code

set_option linter.unusedVariables false

namespace Malloc

/-- What is left to do of a call. -/
inductive Place
  /-- Stores, one behind the other, and then the next place. -/
  | store (todo : List (Heap → Heap)) (next : Place)
  /-- `find_free_block`. -/
  | first (size : Nat) (vmalloc : Nat → Nat)
  /-- The loop of `find_free_block`. -/
  | find (size : Nat) (vmalloc : Nat → Nat) (fuel cur : Nat)
  /-- `extend_heap`. -/
  | extend (size : Nat) (vmalloc : Nat → Nat)
  /-- `insert_block`. -/
  | insert (size block : Nat)
  /-- The loop of `insert_block`. -/
  | search (size block fuel cur : Nat)
  /-- `extend_heap` behind `insert_block`. -/
  | inserted (size block : Nat)
  /-- `coalesce_with_next`, and then the next place. -/
  | coalesce (block : Nat) (next : Place)
  /-- `block = block->prev` in `extend_heap`. -/
  | back (size block : Nat)
  /-- `mymalloc` with the block that was found, or 0. -/
  | take (size block : Nat)
  /-- `myfree` behind its first `coalesce_with_next`. -/
  | front (block : Nat)
  /-- A loop that goes on in a circle. -/
  | circle
  | finished (ptr : Nat)

def Place.result : Place → Option Nat
  | .finished ptr => some ptr
  | _ => none

/-! ## The stores of the routines -/

/-- New memory becomes a block. -/
def newStores (block bytes : Nat) : List (Heap → Heap) :=
  [Heap.obtain ⟨block, bytes⟩, Heap.setSize block (wsub bytes sizeofBlock), Heap.setFree block true,
    Heap.setPrev block 0, Heap.setNext block 0]

/-- `insert_block` in front of all blocks. -/
def headStores (block : Nat) : List (Heap → Heap) :=
  [Heap.setPrev block 0, fun h => h.setNext block h.head, fun h => h.linkBack h.head block,
    Heap.setHead block]

/-- `insert_block` behind `cur`. -/
def insertStores (block cur : Nat) : List (Heap → Heap) :=
  [Heap.setPrev block cur, fun h => h.setNext block (h.next cur),
    fun h => h.linkBack (h.next cur) block, Heap.setNext cur block]

/-- `coalesce_with_next`, where the two are merged. -/
def mergeStores (block next : Nat) : List (Heap → Heap) :=
  [fun h => h.setSize block (wadd (h.size block) (wadd sizeofBlock (h.size next))),
    fun h => h.setNext block (h.next next), fun h => h.linkBack (h.next next) block]

/-- `split_block`, where there is room for two. -/
def splitStores (block size rest : Nat) : List (Heap → Heap) :=
  [fun h => h.setSize rest (wsub (wsub (h.size block) size) sizeofBlock), Heap.setFree rest true,
    Heap.setPrev rest block, fun h => h.setNext rest (h.next block),
    fun h => h.linkBack (h.next block) rest, Heap.setSize block size, Heap.setNext block rest]

/-! ## The machine -/

/-- **The next statement.** -/
def Place.step : Place → Heap → Place × Heap
  | .store [] next, h => (next, h)
  | .store (f :: todo) next, h => (.store todo next, f h)
  | .first size vmalloc, h => (.find size vmalloc addressSpace h.head, h)
  | .find _ _ 0 _, h => (.circle, h)
  | .find size vmalloc (fuel + 1) cur, h =>
    if cur = 0 then (.extend size vmalloc, h)
    else if h.free cur = true ∧ h.size cur ≥ size then (.take size cur, h)
    else (.find size vmalloc fuel (h.next cur), h)
  | .extend size vmalloc, h =>
    let bytes := extendBytes size
    let block := vmalloc bytes
    if block = 0 then (.take size 0, h)
    else (.store (newStores block bytes) (.insert size block), h)
  | .insert size block, h =>
    if h.head = 0 ∨ block < h.head then (.store (headStores block) (.inserted size block), h)
    else (.search size block addressSpace h.head, h)
  | .search _ _ 0 _, h => (.circle, h)
  | .search size block (fuel + 1) cur, h =>
    if h.next cur ≠ 0 ∧ h.next cur < block then (.search size block fuel (h.next cur), h)
    else (.store (insertStores block cur) (.inserted size block), h)
  | .inserted size block, h =>
    if h.prev block ≠ 0 then (.coalesce (h.prev block) (.back size block), h)
    else (.coalesce block (.take size block), h)
  | .back size block, h => (.coalesce (h.prev block) (.take size (h.prev block)), h)
  | .coalesce block next, h =>
    let b := h.next block
    if b ≠ 0 ∧ h.free block = true ∧ h.free b = true ∧ blockEnd block h = b then
      (.store (mergeStores block b) next, h)
    else (next, h)
  | .take size block, h =>
    if block = 0 then (.finished 0, h)
    else if h.size block < wadd (wadd size sizeofBlock) minPayload then
      (.store [Heap.setFree block false] (.finished (wadd block sizeofBlock)), h)
    else (.store (splitStores block size (wadd (wadd block sizeofBlock) size) ++
      [Heap.setFree block false]) (.finished (wadd block sizeofBlock)), h)
  | .front block, h =>
    if h.prev block ≠ 0 then (.coalesce (h.prev block) (.finished 0), h) else (.finished 0, h)
  | .circle, h => (.circle, h)
  | .finished ptr, h => (.finished ptr, h)

/-- Some steps. -/
abbrev Runs : Place × Heap → Place × Heap → Prop := Stepping.Runs Place.step Place.result

/-- `mymalloc` behind `spin_lock`. -/
def mallocStart (size : Nat) (vmalloc : Nat → Nat) : Place :=
  .store [fun h => { h with mallocCount := h.mallocCount + 1 }] (.first (requestSize size) vmalloc)

/-- `myfree`; a null pointer is left alone. -/
def freeStart (ptr : Nat) : Place :=
  if ptr = 0 then .finished 0
  else
    .store [Heap.setFree (wsub ptr sizeofBlock) true]
      (.coalesce (wsub ptr sizeofBlock) (.front (wsub ptr sizeofBlock)))

/-! ## The routines -/

/-- **Stores that stand one behind the other.** -/
theorem store_runs (todo : List (Heap → Heap)) (next : Place) (h : Heap) :
    Runs (.store todo next, h) (next, todo.foldl (fun h f => f h) h) := by
  induction todo generalizing h with
  | nil => exact .one rfl rfl
  | cons f todo ih => exact .next rfl rfl (ih (f h))

/-- `mymalloc` behind the loop of `find_free_block`. -/
def found (size : Nat) (vmalloc : Nat → Nat) : Option Nat → Place
  | none => .circle
  | some cur => if cur = 0 then .extend size vmalloc else .take size cur

/-- **The loop of `find_free_block`**, round by round. -/
theorem find_runs (size : Nat) (vmalloc : Nat → Nat) (fuel cur : Nat) (h : Heap) :
    Runs (.find size vmalloc fuel cur, h) (found size vmalloc (findFrom h size fuel cur), h) := by
  induction fuel generalizing cur with
  | zero => exact .one rfl rfl
  | succ fuel ih =>
    rw [findFrom]
    by_cases hcur : cur = 0
    · rw [if_pos hcur]
      exact .one rfl (by rw [Place.step, if_pos hcur]; rfl)
    rw [if_neg hcur]
    by_cases hfits : h.free cur = true ∧ h.size cur ≥ size
    · rw [if_pos hfits, found, if_neg hcur]
      exact .one rfl (by rw [Place.step, if_neg hcur, if_pos hfits])
    · rw [if_neg hfits]
      exact .next rfl (by rw [Place.step, if_neg hcur, if_neg hfits]) (ih _)

/-- `insert_block` behind its loop. -/
def placed (size block : Nat) : Option Nat → Place
  | none => .circle
  | some cur => .store (insertStores block cur) (.inserted size block)

/-- **The loop of `insert_block`**, round by round. -/
theorem search_runs (size block fuel cur : Nat) (h : Heap) :
    Runs (.search size block fuel cur, h) (placed size block (findPlace h block fuel cur), h) := by
  induction fuel generalizing cur with
  | zero => exact .one rfl rfl
  | succ fuel ih =>
    rw [findPlace]
    by_cases hnext : h.next cur ≠ 0 ∧ h.next cur < block
    · rw [if_pos hnext]
      exact .next rfl (by rw [Place.step, if_pos hnext]) (ih _)
    · rw [if_neg hnext]
      exact .one rfl (by rw [Place.step, if_neg hnext]; rfl)

/-- The machine inserts a block as `insert_block` does. -/
theorem insert_runs (size block : Nat) (h : Heap) :
    Runs (.insert size block, h)
      (match insertBlock block h with
        | none => (.circle, h)
        | some h' => (.inserted size block, h')) := by
  rw [insertBlock]
  by_cases hfront : h.head = 0 ∨ block < h.head
  · rw [if_pos hfront]
    exact .next rfl (if_pos hfront) (store_runs (headStores block) _ h)
  · rw [if_neg hfront]
    refine .next rfl (if_neg hfront) ((search_runs size block addressSpace h.head h).trans ?_)
    cases findPlace h block addressSpace h.head with
    | none => exact .refl _
    | some cur => exact store_runs (insertStores block cur) _ h

/-- The machine merges a block as `coalesce_with_next` does. -/
theorem coalesce_runs (block : Nat) (next : Place) (h : Heap) :
    Runs (.coalesce block next, h) (next, coalesceWithNext block h) := by
  rw [coalesceWithNext]
  dsimp only
  by_cases hmerge : h.next block ≠ 0 ∧ h.free block = true ∧ h.free (h.next block) = true ∧
      blockEnd block h = h.next block
  · rw [if_pos hmerge]
    exact .next rfl (if_pos hmerge) (store_runs (mergeStores block (h.next block)) next h)
  · rw [if_neg hmerge]
    exact .one rfl (if_neg hmerge)

/-- The end of a call: the block is cut and taken, or NULL is returned. -/
theorem take_runs (size block : Nat) (h : Heap) :
    Runs (.take size block, h)
      (if block = 0 then (.finished 0, h)
        else (.finished (wadd block sizeofBlock), (splitBlock block size h).setFree block false)) := by
  by_cases hblock : block = 0
  · rw [if_pos hblock]
    exact .one rfl (if_pos hblock)
  rw [if_neg hblock, splitBlock]
  by_cases hsmall : h.size block < wadd (wadd size sizeofBlock) minPayload
  · rw [if_pos hsmall]
    refine .next rfl ?_ (store_runs [Heap.setFree block false] _ h)
    rw [Place.step, if_neg hblock, if_pos hsmall]
  · rw [if_neg hsmall]
    refine .next rfl ?_ (store_runs (splitStores block size (wadd (wadd block sizeofBlock) size) ++
      [Heap.setFree block false]) _ h)
    rw [Place.step, if_neg hblock, if_neg hsmall]

/-- **`extend_heap`**, and the block that it hands on. -/
theorem extend_runs (size : Nat) (vmalloc : Nat → Nat) (h : Heap) :
    match extendHeap size vmalloc h with
    | none => ∃ h', Runs (.extend size vmalloc, h) (.circle, h')
    | some (block, h') => Runs (.extend size vmalloc, h) (.take size block, h') := by
  rw [extendHeap]
  dsimp only
  by_cases hnone : vmalloc (extendBytes size) = 0
  · rw [if_pos hnone]
    exact .one rfl (if_pos hnone)
  rw [if_neg hnone]
  have hnew : Runs (.extend size vmalloc, h)
      (.insert size (vmalloc (extendBytes size)), (newStores (vmalloc (extendBytes size))
        (extendBytes size)).foldl (fun h f => f h) h) :=
    .next rfl (if_neg hnone) (store_runs _ _ h)
  have hinsert := hnew.trans (insert_runs size (vmalloc (extendBytes size)) _)
  generalize vmalloc (extendBytes size) = block at hnone hinsert ⊢
  change Runs _ (match insertBlock block (((((h.obtain ⟨block, extendBytes size⟩).setSize block
    (wsub (extendBytes size) sizeofBlock)).setFree block true).setPrev block 0).setNext block 0) with
    | none => _
    | some h' => _) at hinsert
  cases hins : insertBlock block (((((h.obtain ⟨block, extendBytes size⟩).setSize block
    (wsub (extendBytes size) sizeofBlock)).setFree block true).setPrev block 0).setNext block 0) with
  | none =>
    rw [hins] at hinsert
    exact ⟨_, hinsert⟩
  | some h' =>
    rw [hins] at hinsert
    rw [Option.map_some]
    by_cases hprev : h'.prev block ≠ 0
    · rw [if_pos hprev]
      exact hinsert.trans (.next rfl (if_pos hprev) ((coalesce_runs _ _ _).trans
        (.next rfl rfl (coalesce_runs _ _ _))))
    · rw [if_neg hprev]
      exact hinsert.trans (.next rfl (if_neg hprev) (coalesce_runs _ _ _))

/-! ## The calls -/

/-- **The machine is `mymalloc`**, as far as that returns. -/
theorem malloc_runs (size : Nat) (vmalloc : Nat → Nat) (h : Heap) :
    match mymalloc size vmalloc h with
    | none => ∃ h', Runs (mallocStart size vmalloc, h) (.circle, h')
    | some (ptr, h') => Runs (mallocStart size vmalloc, h) (.finished ptr, h') := by
  have hfind : Runs (mallocStart size vmalloc, h)
      (found (requestSize size) vmalloc
        (findFreeBlock (requestSize size) { h with mallocCount := h.mallocCount + 1 }),
        { h with mallocCount := h.mallocCount + 1 }) :=
    (store_runs _ _ h).trans (.next rfl rfl (find_runs _ _ _ _ _))
  rw [mymalloc]
  dsimp only
  generalize ({ h with mallocCount := h.mallocCount + 1 } : Heap) = h₁ at hfind ⊢
  generalize requestSize size = n at hfind ⊢
  cases hfound : findFreeBlock n h₁ with
  | none =>
    rw [hfound] at hfind
    exact ⟨h₁, hfind⟩
  | some cur =>
    rw [hfound, found] at hfind
    rw [Option.bind_some]
    -- the end of the call, with the block that it has
    have hend : ∀ (block : Nat) (h' : Heap) (r : Nat × Heap),
        (if block = 0 then (0, h')
          else (wadd block sizeofBlock, (splitBlock block n h').setFree block false)) = r →
        Runs (mallocStart size vmalloc, h) (.take n block, h') →
        Runs (mallocStart size vmalloc, h) (.finished r.1, r.2) := by
      rintro block h' r rfl hrun
      have htake := hrun.trans (take_runs n block h')
      by_cases hblock : block = 0
      · rw [if_pos hblock] at htake ⊢
        exact htake
      · rw [if_neg hblock] at htake ⊢
        exact htake
    by_cases hcur : cur = 0
    · rw [if_pos hcur] at hfind ⊢
      have hextend := extend_runs n vmalloc h₁
      cases hext : extendHeap n vmalloc h₁ with
      | none =>
        rw [hext] at hextend
        obtain ⟨h', hcircle⟩ := hextend
        exact ⟨h', hfind.trans hcircle⟩
      | some got =>
        rw [hext] at hextend
        exact hend got.1 got.2 _ rfl (hfind.trans hextend)
    · rw [if_neg hcur] at hfind ⊢
      exact hend cur h₁ _ rfl hfind

/-- **The machine is `myfree`.** -/
theorem free_runs (ptr : Nat) (h : Heap) : Runs (freeStart ptr, h) (.finished 0, myfree ptr h) := by
  rw [freeStart, myfree]
  by_cases hptr : ptr = 0
  · rw [if_pos hptr, if_pos hptr]
    exact .refl _
  rw [if_neg hptr, if_neg hptr]
  refine (store_runs _ _ h).trans ((coalesce_runs _ _ _).trans ?_)
  dsimp only [List.foldl_cons, List.foldl_nil]
  generalize coalesceWithNext (wsub ptr sizeofBlock) _ = h₁
  by_cases hprev : h₁.prev (wsub ptr sizeofBlock) ≠ 0
  · rw [if_pos hprev]
    exact .next rfl (if_pos hprev) (coalesce_runs _ _ _)
  · rw [if_neg hprev]
    exact .one rfl (if_neg hprev)

end Malloc
