/-
  mymalloc — threads under the spin lock.

  1. **Program** — `spin_lock` tries a compare-and-exchange until it finds the lock word unlocked.
     `Uses` are the runs of any number of threads whose programs free only what they hold, and each
     pointer once; between `spin_lock` and `spin_unlock` a thread makes the steps of `calls`, which
     for the source are those of `Malloc.Steps` (`statementCalls`).
  2. **Specification (`threads_safe`)** — what happens to the heap is a run of `Sys`, call by call,
     in the order in which the threads let go of the lock, so whatever holds of such runs holds with
     threads.
  3. **The crux (`Tracks`)** — the steps a thread makes inside are those of one call on the heap it
     found, since at most one thread is between the two calls of the lock (`spinning_exclusive`).
     `byStatements_implements` shows it of the statements of the source.
  4. **What is idealised** — the atomic exchanges order all memory accesses around them; a thread is
     never killed; a request is met as `extend_heap` expects, and no size wraps.
-/
import MiniLabs.Lib.Sections
import MiniLabs.Malloc.Safety
import MiniLabs.Malloc.Steps

set_option linter.unusedVariables false

namespace Malloc

open Extents Sections

/-! ## The spin lock -/

section SpinLock

variable {T : Type} [DecidableEq T]

/-- Where a thread is. -/
inductive Spin
  | out
  | spinning
  | inside
  deriving DecidableEq

/-- The lock word and the threads. -/
structure SpinLock (T : Type) where
  locked : Bool
  pc : T → Spin

/-- A step of `spin_lock` that does not get the lock. -/
inductive SpinMove (t : T) (k : SpinLock T) : SpinLock T → Prop
  | call (hpc : k.pc t = .out) : SpinMove t k { k with pc := Function.update k.pc t .spinning }
  /-- The compare-and-exchange fails, and `expected` is set to `UNLOCKED` again. -/
  | retry (hpc : k.pc t = .spinning) (hlocked : k.locked = true) : SpinMove t k k

/-- The compare-and-exchange succeeds. -/
inductive SpinEnter (t : T) (k : SpinLock T) : SpinLock T → Prop
  | exchange (hpc : k.pc t = .spinning) (hfree : k.locked = false) :
      SpinEnter t k ⟨true, Function.update k.pc t .inside⟩

/-- `spin_unlock`. -/
inductive SpinLeave (t : T) (k : SpinLock T) : SpinLock T → Prop
  | store (hpc : k.pc t = .inside) : SpinLeave t k ⟨false, Function.update k.pc t .out⟩

/-- `spin_lock` and `spin_unlock`; a thread dies only with its process, and the heap with it. -/
def spinning : Protocol T where
  State := SpinLock T
  init := ⟨false, fun _ => .out⟩
  move := SpinMove
  enter := SpinEnter
  leave := SpinLeave
  kill _ _ _ := False

/-- The lock word says whether a thread is inside, and one at most is. -/
structure SpinInv (k : SpinLock T) (I : T → Prop) : Prop where
  inside : ∀ t, I t ↔ k.pc t = .inside
  locked : ∀ t, I t → k.locked = true
  alone : ∀ t u, I t → I u → t = u

/-- The lock word tells who is inside, in every reachable state. -/
theorem spinning_inv {k : (spinning (T := T)).State} {I : T → Prop}
    (h : (spinning (T := T)).Reach k I) : SpinInv k I := by
  induction h with
  | init hI => exact ⟨fun t => ⟨fun ht => absurd ht (hI t), fun ht => by cases ht⟩,
      fun t ht => absurd ht (hI t), fun t u ht => absurd ht (hI t)⟩
  | @move k k' I t _ ht hmove ih =>
    cases hmove with
    | call hpc =>
      refine ⟨fun u => ?_, ih.locked, ih.alone⟩
      by_cases hut : u = t
      · subst hut
        simp [ht]
      · simpa [hut] using ih.inside u
    | retry => exact ih
  | @enter k k' I I' t _ ht henter hI ih =>
    cases henter with
    | exchange hpc hfree =>
      -- the word was unlocked, so nobody was inside
      have hnone : ∀ u, ¬ I u := fun u hu => by
        rw [ih.locked u hu] at hfree
        cases hfree
      have honly : ∀ u, I' u ↔ u = t := fun u => by simp [hI u, hnone u]
      refine ⟨fun u => ?_, fun u _ => rfl, fun u v hu hv =>
        ((honly u).mp hu).trans ((honly v).mp hv).symm⟩
      rw [honly]
      by_cases hut : u = t
      · simp [hut]
      · have hout := mt (ih.inside u).mpr (hnone u)
        simpa [hut] using hout
  | @leave k k' I I' t _ ht hleave hI ih =>
    cases hleave with
    | store hpc =>
      have hnone : ∀ u, ¬ I' u := fun u hu => ((hI u).mp hu).2 (ih.alone u t ((hI u).mp hu).1 ht)
      refine ⟨fun u => ?_, fun u hu => absurd hu (hnone u), fun u v hu => absurd hu (hnone u)⟩
      by_cases hut : u = t
      · simp [hut, hnone]
      · have hout : k.pc u ≠ .inside := fun hu => hnone u ((hI u).mpr ⟨(ih.inside u).mpr hu, hut⟩)
        simpa [hut, hnone u] using hout
  | kill _ hkill => exact hkill.elim

/-- **At most one thread is inside.** -/
theorem spinning_exclusive : (spinning (T := T)).Exclusive :=
  fun k I h => (spinning_inv h).alone

end SpinLock

/-! ## The counter -/

section Counter

variable {h h' : Heap} {size : Nat}

@[simp] theorem count_setSize (a size : Nat) (h : Heap) :
    (h.setSize a size).mallocCount = h.mallocCount := rfl

@[simp] theorem count_setFree (a : Nat) (free : Bool) (h : Heap) :
    (h.setFree a free).mallocCount = h.mallocCount := rfl

@[simp] theorem count_setPrev (a prev : Nat) (h : Heap) :
    (h.setPrev a prev).mallocCount = h.mallocCount := rfl

@[simp] theorem count_setNext (a next : Nat) (h : Heap) :
    (h.setNext a next).mallocCount = h.mallocCount := rfl

@[simp] theorem count_setHead (head : Nat) (h : Heap) :
    (h.setHead head).mallocCount = h.mallocCount := rfl

@[simp] theorem count_obtain (e : Extent) (h : Heap) :
    (h.obtain e).mallocCount = h.mallocCount := rfl

@[simp] theorem count_linkBack (x prev : Nat) (h : Heap) :
    (h.linkBack x prev).mallocCount = h.mallocCount := by
  rw [Heap.linkBack]
  split <;> rfl

@[simp] theorem count_coalesce (block : Nat) (h : Heap) :
    (coalesceWithNext block h).mallocCount = h.mallocCount := by
  simp only [coalesceWithNext]
  split
  · simp only [count_linkBack, count_setNext, count_setSize]
  · rfl

@[simp] theorem count_split (block size : Nat) (h : Heap) :
    (splitBlock block size h).mallocCount = h.mallocCount := by
  simp only [splitBlock]
  split
  · rfl
  · simp only [count_setNext, count_setSize, count_linkBack, count_setPrev, count_setFree]

/-- `insert_block` counts nothing. -/
theorem count_insert {block : Nat} (hins : insertBlock block h = some h') :
    h'.mallocCount = h.mallocCount := by
  simp only [insertBlock] at hins
  split at hins
  · rw [← Option.some.inj hins]
    simp only [count_setHead, count_linkBack, count_setNext, count_setPrev]
  · obtain ⟨cur, -, hcur⟩ := Option.map_eq_some_iff.mp hins
    rw [← hcur]
    simp only [count_setNext, count_linkBack, count_setPrev]

/-- `extend_heap` counts nothing. -/
theorem count_extend {vmalloc : Nat → Nat} {p : Nat}
    (hext : extendHeap size vmalloc h = some (p, h')) : h'.mallocCount = h.mallocCount := by
  simp only [extendHeap] at hext
  split at hext
  · rw [← (Prod.mk.inj (Option.some.inj hext)).2]
  · obtain ⟨h₁, hins, hres⟩ := Option.map_eq_some_iff.mp hext
    have hcount := count_insert hins
    simp only [count_setNext, count_setPrev, count_setFree, count_setSize, count_obtain] at hcount
    split at hres
    · rw [← (Prod.mk.inj hres).2, count_coalesce, count_coalesce, hcount]
    · rw [← (Prod.mk.inj hres).2, count_coalesce, hcount]

/-- A request counts once, whether it is met or not. -/
theorem count_mymalloc {n p : Nat} {vmalloc : Nat → Nat}
    (hcall : mymalloc n vmalloc h = some (p, h')) : h'.mallocCount = h.mallocCount + 1 := by
  simp only [mymalloc] at hcall
  obtain ⟨found, -, hrest⟩ := Option.bind_eq_some_iff.mp hcall
  obtain ⟨⟨block, h₁⟩, hplace, hres⟩ := Option.map_eq_some_iff.mp hrest
  have hcount : h₁.mallocCount = h.mallocCount + 1 := by
    split at hplace
    · exact count_extend hplace
    · rw [← (Prod.mk.inj (Option.some.inj hplace)).2]
  simp only at hres
  split at hres
  · rw [← (Prod.mk.inj hres).2, hcount]
  · rw [← (Prod.mk.inj hres).2, count_setFree, count_split, hcount]

/-- `myfree` counts nothing. -/
theorem count_myfree (ptr : Nat) (h : Heap) : (myfree ptr h).mallocCount = h.mallocCount := by
  simp only [myfree]
  split
  · rfl
  · split <;> simp only [count_coalesce, count_setFree]

end Counter

/-! ## Calls in steps -/

/-- A whole call between `spin_lock` and `spin_unlock`, as far as it returns. -/
def Call.whole : Call → Heap → Option (Nat × Heap)
  | .mymalloc n vmalloc, h => Malloc.mymalloc n vmalloc h
  | .myfree ptr, h => some (0, Malloc.myfree ptr h)

/-- The calls, cut into steps in some way. -/
structure Calls extends Code Call Heap Nat where
  implements : toCode.Implements Call.whole fun _ _ _ => True

/-- Where the code of the call begins. -/
def Call.start : Call → Place
  | .mymalloc n vmalloc => mallocStart n vmalloc
  | .myfree ptr => freeStart ptr

/-- **The calls in the steps that the code takes**: one store or one round of a loop after the
    other. -/
def byStatements : Code Call Heap Nat where
  Local := Place
  start := Call.start
  step := Place.step
  result := Place.result

/-- **The statements of the code make the calls.** -/
theorem byStatements_implements : byStatements.Implements Call.whole fun _ _ _ => True := by
  apply Code.implements_of_runs
  · intro op h ptr h' hop
    refine ⟨.finished ptr, ?_, rfl⟩
    cases op with
    | mymalloc n vmalloc =>
      have hop' : mymalloc n vmalloc h = some (ptr, h') := hop
      have hrun := malloc_runs n vmalloc h
      rw [hop'] at hrun
      exact hrun
    | myfree p =>
      obtain ⟨rfl, rfl⟩ := Prod.mk.inj (Option.some.inj hop)
      exact free_runs p h
  · intro op h hop
    cases op with
    | mymalloc n vmalloc =>
      have hop' : mymalloc n vmalloc h = none := hop
      have hrun := malloc_runs n vmalloc h
      rw [hop'] at hrun
      obtain ⟨h', hcircle⟩ := hrun
      exact ⟨.circle, h', hcircle, rfl, rfl⟩
    | myfree p => cases hop

/-- The calls, statement by statement. -/
def statementCalls : Calls := ⟨byStatements, byStatements_implements⟩

section Threads

variable {T : Type} [DecidableEq T]

/-- What a program holds from a call on that has let go of the lock. -/
def gained : List (Sections.Event T Call Nat) → List (Nat × Nat)
  | [] => []
  | .done _ (.mymalloc n _) p :: es => if p = 0 then gained es else (p, n) :: gained es
  | _ :: es => gained es

/-- The requests among the calls. -/
def requests : List (Sections.Event T Call Nat) → Nat
  | [] => 0
  | .done _ (.mymalloc _ _) _ :: es => requests es + 1
  | _ :: es => requests es

/-- **The runs of threads whose programs free what they hold**: `held` are the allocations whose
    pointer `mymalloc` has found and nobody has passed to `myfree`.  A thread that takes the lock
    to allocate finds fresh memory behind `vmalloc`, and is served. -/
inductive Uses (calls : Calls) : List (Nat × Nat) → List (Sections.Event T Call Nat) →
    Config (spinning (T := T)) Call calls.Local Nat Heap → Prop
  | start : Uses calls [] [] ⟨(spinning (T := T)).init, fun _ => .idle, Heap.init⟩
  | malloc {held : List (Nat × Nat)} {es : List (Sections.Event T Call Nat)}
      {c : Config (spinning (T := T)) Call calls.Local Nat Heap} {t : T} {n : Nat}
      {vmalloc : Nat → Nat} (h : Uses calls held es c) (hidle : c.phase t = .idle)
      (hn : NoWrap n) :
      Uses calls held es
        { c with phase := Function.update c.phase t (.called (.mymalloc n vmalloc)) }
  | free {held : List (Nat × Nat)} {es : List (Sections.Event T Call Nat)}
      {c : Config (spinning (T := T)) Call calls.Local Nat Heap} {t : T} {a : Nat × Nat}
      (h : Uses calls held es c) (hidle : c.phase t = .idle) (ha : a ∈ held) :
      Uses calls (held.filter fun a' => a'.1 ≠ a.1) es
        { c with phase := Function.update c.phase t (.called (.myfree a.1)) }
  | step {held : List (Nat × Nat)} {es es' : List (Sections.Event T Call Nat)}
      {c c' : Config (spinning (T := T)) Call calls.Local Nat Heap} (h : Uses calls held es c)
      (hstep : Step spinning calls.toCode c es' c')
      (hidle : ∀ t, c.phase t = .idle → c'.phase t = .idle)
      (hserved : ∀ t n vmalloc l, ¬ c.Inside t → c'.phase t = .inside (.mymalloc n vmalloc) l →
        Vmalloc c.shared vmalloc ∧ c.shared.Served n vmalloc) :
      Uses calls (gained es' ++ held) (es ++ es') c'

variable {calls : Calls} {held : List (Nat × Nat)} {es : List (Sections.Event T Call Nat)}
  {c : Config (spinning (T := T)) Call calls.Local Nat Heap}

/-- A run of programs is a run of sections. -/
theorem Uses.exec (h : Uses calls held es c) :
    Exec spinning calls.toCode Heap.init es c := by
  induction h with
  | start => exact .start
  | @malloc _ es c t n vmalloc _ hidle _ ih =>
    have hcall : Step spinning calls.toCode c []
        { c with phase := Function.update c.phase t (.called (.mymalloc n vmalloc)) } := .call hidle
    have hnext := ih.step hcall
    rwa [List.append_nil] at hnext
  | @free _ es c t a _ hidle _ ih =>
    have hcall : Step spinning calls.toCode c []
        { c with phase := Function.update c.phase t (.called (.myfree a.1)) } := .call hidle
    have hnext := ih.step hcall
    rwa [List.append_nil] at hnext
  | step _ hstep _ _ ih => exact ih.step hstep

/-- A thread's call, from the call itself to the end of its section. -/
def Pending (c : Config (spinning (T := T)) Call calls.Local Nat Heap) (t : T) (op : Call) : Prop :=
  c.phase t = .called op ∨ ∃ l, c.phase t = .inside op l

/-- `s` is the state of the calls so far, with the live allocations: those held, and those that
    threads are about to free, each by one. -/
structure Tracks (held : List (Nat × Nat)) (es : List (Sections.Event T Call Nat))
    (c : Config (spinning (T := T)) Call calls.Local Nat Heap) (s : Sys) : Prop where
  run : Sys.Run Sys.Served s
  linear : Linearized calls.toCode Call.whole (fun _ _ _ => True) Heap.init es c s.heap
  live : ∀ a ∈ held, a ∈ s.live
  apart : (held.map Prod.fst).Nodup
  count : s.heap.mallocCount = requests es
  request : ∀ t n vmalloc, Pending c t (.mymalloc n vmalloc) → NoWrap n
  fresh : ∀ t n vmalloc l, c.phase t = .inside (.mymalloc n vmalloc) l →
    Vmalloc s.heap vmalloc ∧ s.heap.Served n vmalloc
  freeing : ∀ t p, Pending c t (.myfree p) → (∃ n, (p, n) ∈ s.live) ∧ p ∉ held.map Prod.fst
  once : ∀ t u p, Pending c t (.myfree p) → Pending c u (.myfree p) → t = u

variable {es' : List (Sections.Event T Call Nat)}
  {c' : Config (spinning (T := T)) Call calls.Local Nat Heap} {s : Sys}

/-- A step that ends no section and makes no call. -/
theorem Tracks.keep (h : Tracks held es c s)
    (hlinear : Linearized calls.toCode Call.whole (fun _ _ _ => True) Heap.init es c' s.heap)
    (hpending : ∀ t op, Pending c' t op → Pending c t op)
    (hfresh : ∀ t n vmalloc l, c'.phase t = .inside (.mymalloc n vmalloc) l →
      Vmalloc s.heap vmalloc ∧ s.heap.Served n vmalloc) : Tracks held es c' s where
  run := h.run
  linear := hlinear
  live := h.live
  apart := h.apart
  count := h.count
  request t n vmalloc ht := h.request t n vmalloc (hpending t _ ht)
  fresh := hfresh
  freeing t p ht := h.freeing t p (hpending t _ ht)
  once t u p ht hu := h.once t u p (hpending t _ ht) (hpending u _ hu)

/-- A thread changes its phase. -/
theorem pending_update {t u : T} {φ : Phase Call calls.Local Nat} {op : Call}
    {lock : SpinLock T} {shared : Heap}
    (h : Pending (⟨lock, Function.update c.phase t φ, shared⟩ :
      Config (spinning (T := T)) Call calls.Local Nat Heap) u op) :
    (u = t ∧ (φ = .called op ∨ ∃ l, φ = .inside op l)) ∨ (u ≠ t ∧ Pending c u op) := by
  by_cases hut : u = t
  · subst hut
    exact .inl ⟨rfl, by simpa [Pending] using h⟩
  · exact .inr ⟨hut, by simpa [Pending, hut] using h⟩

/-- A thread that is inside is the one that moved or was inside before. -/
theorem inside_of_update {t u : T} {φ : Phase Call calls.Local Nat} {op : Call}
    {l : calls.Local} (h : Function.update c.phase t φ u = .inside op l) :
    (u = t ∧ φ = .inside op l) ∨ (u ≠ t ∧ c.phase u = .inside op l) := by
  by_cases hut : u = t
  · subst hut
    exact .inl ⟨rfl, by simpa using h⟩
  · exact .inr ⟨hut, by simpa [hut] using h⟩

/-- A thread gives up, or returns. -/
theorem Tracks.outside (h : Tracks held es c s) {t : T} {φ : Phase Call calls.Local Nat}
    (hφ : ∀ op, ¬ (φ = .called op ∨ ∃ l, φ = .inside op l))
    (hlinear : Linearized calls.toCode Call.whole (fun _ _ _ => True) Heap.init es
      (⟨c.lock, Function.update c.phase t φ, c.shared⟩ :
        Config (spinning (T := T)) Call calls.Local Nat Heap) s.heap) :
    Tracks held es (⟨c.lock, Function.update c.phase t φ, c.shared⟩ :
      Config (spinning (T := T)) Call calls.Local Nat Heap) s := by
  refine h.keep hlinear (fun u op hu => ?_) fun u n v l hu => ?_
  · rcases pending_update hu with ⟨-, hu⟩ | ⟨-, hu⟩
    · exact absurd hu (hφ op)
    · exact hu
  · rcases inside_of_update hu with ⟨-, hu⟩ | ⟨-, hu⟩
    · exact absurd (.inr ⟨l, hu⟩) (hφ _)
    · exact h.fresh u n v l hu

/-- A thread calls. -/
theorem Tracks.call (h : Tracks held es c s) {t : T} {op : Call} (hidle : c.phase t = .idle) :
    Linearized calls.toCode Call.whole (fun _ _ _ => True) Heap.init es
      (⟨c.lock, Function.update c.phase t (.called op), c.shared⟩ :
        Config (spinning (T := T)) Call calls.Local Nat Heap) s.heap :=
  h.linear.outside (by simp [Config.Inside, hidle]) (by simp)

/-- A thread asks for memory: nothing happens to the heap yet. -/
theorem Tracks.malloc (h : Tracks held es c s) {t : T} {n : Nat} {vmalloc : Nat → Nat}
    (hidle : c.phase t = .idle) (hn : NoWrap n) : Tracks held es
      { c with phase := Function.update c.phase t (.called (.mymalloc n vmalloc)) } s := by
  have hfree : ∀ u p, Pending (⟨c.lock, Function.update c.phase t (.called (.mymalloc n vmalloc)),
      c.shared⟩ : Config (spinning (T := T)) Call calls.Local Nat Heap) u (.myfree p) →
      Pending c u (.myfree p) := by
    intro u p hu
    rcases pending_update hu with ⟨-, hu⟩ | ⟨-, hu⟩
    · simp at hu
    · exact hu
  refine ⟨h.run, h.call hidle, h.live, h.apart, h.count, fun u k v hu => ?_, fun u k v l hu => ?_,
    fun u p hu => h.freeing u p (hfree u p hu), fun u v p hu hv => h.once u v p (hfree u p hu)
      (hfree v p hv)⟩
  · rcases pending_update hu with ⟨-, hu⟩ | ⟨-, hu⟩
    · have heq : n = k := by
        rcases hu with hu | ⟨l, hu⟩
        · exact (Call.mymalloc.inj (Phase.called.inj hu)).1
        · cases hu
      exact heq ▸ hn
    · exact h.request u k v hu
  · rcases inside_of_update hu with ⟨-, hu⟩ | ⟨-, hu⟩
    · cases hu
    · exact h.fresh u k v l hu

/-- A thread gives back what it holds: from now on nobody else may. -/
theorem Tracks.free (h : Tracks held es c s) {t : T} {a : Nat × Nat} (hidle : c.phase t = .idle)
    (ha : a ∈ held) : Tracks (held.filter fun a' => a'.1 ≠ a.1) es
      { c with phase := Function.update c.phase t (.called (.myfree a.1)) } s := by
  have hmem : a.1 ∈ held.map Prod.fst := List.mem_map_of_mem ha
  have hsub : ∀ {p : Nat}, p ∉ held.map Prod.fst →
      p ∉ (held.filter fun a' => a'.1 ≠ a.1).map Prod.fst :=
    fun hp hin => hp ((List.filter_sublist.map _).subset hin)
  have hgone : a.1 ∉ (held.filter fun a' => a'.1 ≠ a.1).map Prod.fst := by
    rintro hin
    obtain ⟨b, hb, heq⟩ := List.mem_map.mp hin
    exact absurd heq (by simpa using (List.mem_filter.mp hb).2)
  have hmine : ∀ p, (Phase.called (Call.myfree a.1) : Phase Call calls.Local Nat) =
      .called (.myfree p) ∨ (∃ l, (Phase.called (Call.myfree a.1) : Phase Call calls.Local Nat) =
        .inside (.myfree p) l) → a.1 = p := by
    rintro p (hp | ⟨l, hp⟩)
    · exact Call.myfree.inj (Phase.called.inj hp)
    · cases hp
  refine ⟨h.run, h.call hidle, fun b hb => h.live b (List.mem_of_mem_filter hb),
    h.apart.sublist (List.filter_sublist.map _), h.count, fun u k v hu => ?_, fun u k v l hu => ?_,
    fun u p hu => ?_, fun u v p hu hv => ?_⟩
  · rcases pending_update hu with ⟨-, hu⟩ | ⟨-, hu⟩
    · simp at hu
    · exact h.request u k v hu
  · rcases inside_of_update hu with ⟨-, hu⟩ | ⟨-, hu⟩
    · cases hu
    · exact h.fresh u k v l hu
  · rcases pending_update hu with ⟨-, hu⟩ | ⟨-, hu⟩
    · obtain rfl := hmine p hu
      exact ⟨⟨a.2, h.live a ha⟩, hgone⟩
    · exact ⟨(h.freeing u p hu).1, hsub (h.freeing u p hu).2⟩
  · -- a pointer that is being freed is held by nobody, so it is not freed again
    rcases pending_update hu with ⟨hut, hu'⟩ | ⟨-, hu'⟩
    · obtain rfl := hmine p hu'
      rcases pending_update hv with ⟨hvt, -⟩ | ⟨-, hv'⟩
      · rw [hut, hvt]
      · exact absurd hmem (h.freeing v _ hv').2
    · rcases pending_update hv with ⟨-, hv'⟩ | ⟨-, hv'⟩
      · obtain rfl := hmine p hv'
        exact absurd hmem (h.freeing u _ hu').2
      · exact h.once u v p hu' hv'

omit [DecidableEq T] in
/-- Requests are counted one behind the other. -/
theorem requests_append (es es' : List (Sections.Event T Call Nat)) :
    requests (es ++ es') = requests es + requests es' := by
  induction es using requests.induct with
  | case1 => exact (Nat.zero_add _).symm
  | case2 t n vmalloc r es ih =>
    rw [List.cons_append, requests, requests, ih]
    omega
  | case3 e es he ih =>
    rw [List.cons_append, requests, requests, ih] <;> assumption

/-- A section that ends: the call is made on the state of the calls so far. -/
theorem Tracks.leave (h : Tracks held es c s) {t : T} {op : Call} {l : calls.Local} {r : Nat}
    {heap : Heap} {k : SpinLock T} (ht : c.phase t = .inside op l)
    (hnone : ∀ u, u ≠ t → ¬ c.Inside u) (hop : op.whole s.heap = some (r, heap))
    (hlinear : Linearized calls.toCode Call.whole (fun _ _ _ => True) Heap.init
      (es ++ [.done t op r]) (⟨k, Function.update c.phase t (.left (some r)), c.shared⟩ :
        Config (spinning (T := T)) Call calls.Local Nat Heap) heap) :
    ∃ s', s.step op = some s' ∧
      Tracks (gained [Sections.Event.done t op r] ++ held) (es ++ [.done t op r])
        (⟨k, Function.update c.phase t (.left (some r)), c.shared⟩ :
          Config (spinning (T := T)) Call calls.Local Nat Heap) s' := by
  have hpending : ∀ u op', Pending (⟨k, Function.update c.phase t (.left (some r)), c.shared⟩ :
      Config (spinning (T := T)) Call calls.Local Nat Heap) u op' → u ≠ t ∧ Pending c u op' := by
    intro u op' hu
    rcases pending_update hu with ⟨-, hu⟩ | hu
    · simp at hu
    · exact hu
  have hfresh : ∀ (heap' : Heap) u n vmalloc l', Function.update c.phase t (.left (some r)) u =
      .inside (.mymalloc n vmalloc) l' → Vmalloc heap' vmalloc ∧ heap'.Served n vmalloc := by
    intro heap' u n vmalloc l' hu
    rcases inside_of_update hu with ⟨-, hu⟩ | ⟨hut, hu⟩
    · cases hu
    · exact absurd ⟨_, _, hu⟩ (hnone u hut)
  have hmine : Pending c t op := .inr ⟨l, ht⟩
  cases op with
  | mymalloc n vmalloc =>
    obtain ⟨hv, hserved⟩ := h.fresh t n vmalloc l ht
    have hstep : s.step (.mymalloc n vmalloc) =
        some ⟨heap, if r = 0 then s.live else (r, n) :: s.live⟩ := by
      show (Malloc.mymalloc n vmalloc s.heap).map _ = _
      rw [show Malloc.mymalloc n vmalloc s.heap = some (r, heap) from hop]
      rfl
    have hrun := Sys.Run.step h.run (c := .mymalloc n vmalloc) ⟨h.request t n vmalloc hmine, hv⟩
      hserved hstep
    have hcount : heap.mallocCount = requests (es ++ [.done t (.mymalloc n vmalloc) r]) := by
      rw [count_mymalloc hop, requests_append, h.count]
      rfl
    refine ⟨_, hstep, ?_⟩
    by_cases hr : r = 0
    · simp only [hr, gained, if_true, List.nil_append] at hrun hlinear hpending hfresh hcount ⊢
      exact ⟨hrun, hlinear, h.live, h.apart, hcount, fun u n v hu => h.request u n v (hpending u _ hu).2,
        hfresh heap, fun u p hu => h.freeing u p (hpending u _ hu).2,
        fun u v p hu hv => h.once u v p (hpending u _ hu).2 (hpending v _ hv).2⟩
    · -- the pointer is a new one
      have hnew : r ∉ s.live.map Prod.fst := by
        obtain ⟨bs, hi⟩ := hrun.inv
        have hdistinct := hi.distinct
        rw [if_neg hr, List.map_cons, List.nodup_cons] at hdistinct
        exact hdistinct.1
      rw [if_neg hr] at hrun
      have hgained : gained [Sections.Event.done t (.mymalloc n vmalloc) r] ++ held =
          (r, n) :: held := by simp [gained, hr]
      rw [hgained, if_neg hr]
      refine ⟨hrun, hlinear, fun a ha => ?_, ?_, hcount,
        fun u n v hu => h.request u n v (hpending u _ hu).2, hfresh heap, fun u p hu => ?_,
        fun u v p hu hv => h.once u v p (hpending u _ hu).2 (hpending v _ hv).2⟩
      · rcases List.mem_cons.mp ha with rfl | ha
        · exact List.mem_cons_self
        · exact List.mem_cons_of_mem _ (h.live a ha)
      · refine List.nodup_cons.mpr ⟨fun hin => ?_, h.apart⟩
        obtain ⟨a, ha, heq⟩ := List.mem_map.mp hin
        have heq' : a.1 = r := heq
        exact hnew (heq' ▸ List.mem_map_of_mem (h.live a ha))
      · obtain ⟨⟨m, hm⟩, hp⟩ := h.freeing u p (hpending u _ hu).2
        refine ⟨⟨m, List.mem_cons_of_mem _ hm⟩, ?_⟩
        rw [List.map_cons, List.mem_cons, not_or]
        refine ⟨?_, hp⟩
        rintro rfl
        exact hnew (List.mem_map_of_mem hm)
  | myfree ptr =>
    obtain ⟨hlive, hptr⟩ := h.freeing t ptr hmine
    obtain ⟨rfl, rfl⟩ := Prod.mk.inj (Option.some.inj hop)
    have hrun := Sys.Run.step h.run (c := .myfree ptr) (.inr hlive) trivial rfl
    have hcount : (Malloc.myfree ptr s.heap).mallocCount =
        requests (es ++ [.done t (.myfree ptr) 0]) := by
      rw [count_myfree, requests_append, h.count]
      rfl
    refine ⟨_, rfl, hrun, hlinear, fun a ha => ?_, h.apart, hcount,
      fun u n v hu => h.request u n v (hpending u _ hu).2, hfresh _, fun u p hu => ?_,
      fun u v p hu hv => h.once u v p (hpending u _ hu).2 (hpending v _ hv).2⟩
    · refine List.mem_filter.mpr ⟨h.live a ha, decide_eq_true fun heq => ?_⟩
      exact hptr (heq ▸ List.mem_map_of_mem ha)
    · obtain ⟨hut, hu'⟩ := hpending u _ hu
      obtain ⟨⟨m, hm⟩, hp⟩ := h.freeing u p hu'
      refine ⟨⟨m, List.mem_filter.mpr ⟨hm, decide_eq_true fun heq => ?_⟩⟩, hp⟩
      have heq' : p = ptr := heq
      exact hut (h.once u t p hu' (heq' ▸ hmine))

/-- **Every step of every thread is tracked.**. -/
theorem Tracks.step (h : Tracks held es c s) (hexec : Exec spinning calls.toCode Heap.init es c)
    (hstep : Step spinning calls.toCode c es' c')
    (hidle : ∀ t, c.phase t = .idle → c'.phase t = .idle)
    (hserved : ∀ t n vmalloc l, ¬ c.Inside t → c'.phase t = .inside (.mymalloc n vmalloc) l →
      Vmalloc c.shared vmalloc ∧ c.shared.Served n vmalloc) :
    ∃ s', Tracks (gained es' ++ held) (es ++ es') c' s' := by
  obtain ⟨heap, hserial, hlinear⟩ := h.linear.step spinning_exclusive calls.implements hexec hstep
  have halone := spinning_exclusive _ _ (hexec.step hstep).reach
  have hbefore := spinning_exclusive _ _ hexec.reach
  cases hstep with
  | @call t op ht =>
    have hcalled := hidle t ht
    simp at hcalled
  | move ht hmove =>
    cases hserial
    rw [List.append_nil] at hlinear ⊢
    exact ⟨s, h.keep hlinear (fun u op hu => hu) h.fresh⟩
  | giveUp ht =>
    cases hserial
    rw [List.append_nil] at hlinear ⊢
    exact ⟨s, h.outside (by simp) hlinear⟩
  | ret ht =>
    cases hserial
    rw [List.append_nil] at hlinear ⊢
    exact ⟨s, h.outside (by simp) hlinear⟩
  | @enter t op k ht henter =>
    cases hserial
    rw [List.append_nil] at hlinear ⊢
    have hout : ¬ c.Inside t := by simp [Config.Inside, ht]
    -- nobody was inside, so the heap is that of the calls so far
    have hheap : c.shared = s.heap := by
      refine h.linear.quiet fun u hu => ?_
      have hut : u ≠ t := by
        rintro rfl
        exact hout hu
      exact hut (halone u t (inside_update.mpr (.inr ⟨hut, hu⟩))
        (inside_update.mpr (.inl ⟨rfl, _, _, rfl⟩)))
    refine ⟨s, h.keep hlinear (fun u op' hu => ?_) fun u n v l hu => ?_⟩
    · rcases pending_update hu with ⟨hut, hu'⟩ | ⟨-, hu'⟩
      · rcases hu' with hu' | ⟨l, hu'⟩
        · cases hu'
        · exact .inl (by rw [hut, ht, (Phase.inside.inj hu').1])
      · exact hu'
    · by_cases hut : u = t
      · rw [← hheap]
        exact hserved u n v l (hut ▸ hout) hu
      · rcases inside_of_update hu with ⟨hut', -⟩ | ⟨-, hu'⟩
        · exact absurd hut' hut
        · exact h.fresh u n v l hu'
  | @work t op l ht hl =>
    cases hserial
    rw [List.append_nil] at hlinear ⊢
    refine ⟨s, h.keep hlinear (fun u op' hu => ?_) fun u n v l' hu => ?_⟩
    · rcases pending_update hu with ⟨hut, hu'⟩ | ⟨-, hu'⟩
      · rcases hu' with hu' | ⟨l', hu'⟩
        · cases hu'
        · exact .inr ⟨l, by rw [hut, ht, (Phase.inside.inj hu').1]⟩
      · exact hu'
    · rcases inside_of_update hu with ⟨hut, hu'⟩ | ⟨-, hu'⟩
      · exact h.fresh t n v l (by rw [ht, (Phase.inside.inj hu').1])
      · exact h.fresh u n v l' hu'
  | leave ht hl hleave =>
    cases hserial with
    | done hop hrest =>
      cases hrest
      obtain ⟨s', -, hs'⟩ := h.leave ht (fun u hut hu => hut (hbefore u _ hu ⟨_, _, ht⟩)) hop hlinear
      exact ⟨s', hs'⟩
  | kill hkill => exact hkill.elim

/-- The heap of every run with threads is that of a run of calls. -/
theorem Uses.tracks (h : Uses calls held es c) : ∃ s, Tracks held es c s := by
  induction h with
  | start =>
    refine ⟨Sys.init, .init, ⟨.nil _, fun t op l ht => by simp at ht, fun _ => rfl⟩,
      fun a ha => absurd ha List.not_mem_nil, List.nodup_nil, rfl, fun t n v ht => ?_,
      fun t n v l ht => by simp at ht, fun t p ht => ?_, fun t u p ht => ?_⟩
    all_goals simp [Pending] at ht
  | malloc _ hidle hn ih =>
    obtain ⟨s, hs⟩ := ih
    exact ⟨s, hs.malloc hidle hn⟩
  | free _ hidle ha ih =>
    obtain ⟨s, hs⟩ := ih
    exact ⟨s, hs.free hidle ha⟩
  | step h hstep hidle hserved ih =>
    obtain ⟨s, hs⟩ := ih
    exact hs.step h.exec hstep hidle hserved

/-- **The allocator is safe with threads.**  Any number of threads allocate and free what they
    hold, in any interleaving of the steps of their calls with the lock.  Then there is a run of
    whole calls that holds the same allocations: they lie apart from one another and from all
    headers, in memory that was obtained, and whenever no thread is inside, the heap is that of
    the run and `malloc_count` the number of requests so far. -/
theorem threads_safe (h : Uses calls held es c) : ∃ s : Sys, Sys.Run Sys.Served s ∧ s.Safe ∧
    (∀ a ∈ held, a ∈ s.live) ∧
    (held.Pairwise fun a a' => Sys.Apart (Sys.payload a) (Sys.payload a')) ∧
    ((∀ t, ¬ c.Inside t) → c.shared = s.heap ∧ c.shared.mallocCount = requests es) := by
  obtain ⟨s, hs⟩ := h.tracks
  obtain ⟨bs, hi⟩ := hs.run.inv
  refine ⟨s, hs.run, hi.safe, hs.live, ?_, fun hquiet => ?_⟩
  · have hsymm : Std.Symm fun a a' => Sys.Apart (Sys.payload a) (Sys.payload a') :=
      ⟨fun a a' hapart x hx hx' => hapart x hx' hx⟩
    refine (List.pairwise_map.mp hs.apart).imp_of_mem fun {a a'} ha ha' hne => ?_
    exact hi.safe.payloads.forall (hs.live a ha) (hs.live a' ha') fun heq => hne (heq ▸ rfl)
  · have hheap := hs.linear.quiet hquiet
    exact ⟨hheap, hheap ▸ hs.count⟩

/-- A thread that is inside goes on by itself. -/
theorem Uses.works {t : T} {op : Call} {l : calls.Local} {heap : Heap} (h : Uses calls held es c)
    (ht : c.phase t = .inside op (calls.start op)) (hgoes : calls.Goes op c.shared l heap) :
    Uses calls held es (⟨c.lock, Function.update c.phase t (.inside op l), heap⟩ :
      Config (spinning (T := T)) Call calls.Local Nat Heap) := by
  induction hgoes with
  | start =>
    rw [← ht, Function.update_eq_self]
    exact h
  | @step l heap _ hl ih =>
    have hnext := ih.step (.work (t := t) (Function.update_self ..) hl) (fun u hu => ?_)
      fun u n v l' hout hin => ?_
    · rw [Function.update_idem, List.append_nil] at hnext
      exact hnext
    · by_cases hut : u = t
      · subst hut
        simp at hu
      · simpa [hut] using hu
    · refine absurd ?_ hout
      by_cases hut : u = t
      · subst hut
        exact ⟨op, l, Function.update_self ..⟩
      · exact ⟨_, l', by simpa [hut] using hin⟩

/-- A request of 100 bytes, with one chunk behind `vmalloc`. -/
def firstRequest : Call := .mymalloc 100 (oneRegion 65536 65536)

/-- One thread allocates while another one waits for the lock. -/
theorem threads_safe_two : ∃ c : Config (spinning (T := Bool)) Call statementCalls.Local Nat Heap,
    Uses statementCalls [(65568, 100)] [.done true firstRequest 65568] c ∧
      c.phase false = .called firstRequest ∧ c.shared.mallocCount = 1 ∧
      ∃ s, Sys.Run Sys.Served s ∧ s.Safe ∧ (65568, 100) ∈ s.live := by
  obtain ⟨⟨p, heap⟩, hcall, rfl⟩ : ∃ res, mymalloc 100 (oneRegion 65536 65536) Heap.init =
      some res ∧ res.1 = 65568 :=
    Option.map_eq_some_iff.mp (by decide : (mymalloc 100 (oneRegion 65536 65536) Heap.init).map
      Prod.fst = some 65568)
  have hn : NoWrap 100 := by
    unfold NoWrap
    decide
  have hv : Vmalloc Heap.init (oneRegion 65536 65536) :=
    oneRegion_vmalloc (by decide) (by decide) fun x _ => covers_nil id x
  have hserved : Heap.init.Served 100 (oneRegion 65536 65536) := by
    intro _ _
    apply Or.inl
    intro b hb
    obtain ⟨c, hc, -⟩ := (Models.init.onList_iff b).mp hb
    exact absurd hc List.not_mem_nil
  obtain ⟨l, hgoes, hl⟩ := byStatements_implements.ends firstRequest Heap.init _ _ hcall
  -- both call
  let c₁ : Config (spinning (T := Bool)) Call statementCalls.Local Nat Heap :=
    ⟨⟨false, fun _ => .out⟩, Function.update (fun _ => .idle) true (.called firstRequest), Heap.init⟩
  have h₁ : Uses statementCalls [] [] c₁ := Uses.start.malloc rfl hn
  let c₂ : Config (spinning (T := Bool)) Call statementCalls.Local Nat Heap :=
    ⟨⟨false, fun _ => .out⟩, Function.update c₁.phase false (.called firstRequest), Heap.init⟩
  have h₂ : Uses statementCalls [] [] c₂ := h₁.malloc rfl hn
  have hidle : ∀ t, c₂.phase t ≠ .idle := by
    intro t ht
    cases t <;> cases ht
  -- the first one gets the lock
  let k : Bool → Spin := Function.update (fun _ => .out) true .spinning
  have h₃ : Uses statementCalls [] [] (⟨⟨false, k⟩, c₂.phase, Heap.init⟩ :
      Config (spinning (T := Bool)) Call statementCalls.Local Nat Heap) := by
    refine h₂.step (.move (t := true) ?_ (.call rfl)) (fun t ht => ht)
      fun t n v l hout hin => absurd ⟨_, _, hin⟩ hout
    rintro ⟨op, l, h⟩
    cases h
  let k' : SpinLock Bool := ⟨true, Function.update k true .inside⟩
  have h₄ : Uses statementCalls [] [] (⟨k', Function.update c₂.phase true
      (.inside firstRequest (statementCalls.start firstRequest)), Heap.init⟩ :
      Config (spinning (T := Bool)) Call statementCalls.Local Nat Heap) := by
    refine h₃.step (.enter (t := true) rfl (.exchange rfl rfl)) (fun t ht => absurd ht (hidle t))
      fun t n v l hout hin => ?_
    cases t <;> cases hin
    exact ⟨hv, hserved⟩
  -- its statements, one by one
  have h₅ := h₄.works (t := true) rfl hgoes
  rw [Function.update_idem] at h₅
  have h₆ := h₅.step (.leave (t := true) (r := 65568) rfl hl (.store rfl))
    (fun t ht => by cases t <;> cases ht) fun t n v l hout hin => by cases t <;> cases hin
  obtain ⟨s, hrun, hsafe, hheld, -, hquiet⟩ := threads_safe h₆
  refine ⟨_, h₆, rfl, (hquiet ?_).2, s, hrun, hsafe, hheld _ List.mem_cons_self⟩
  rintro t ⟨op, l, h⟩
  cases t <;> cases h

end Threads

end Malloc
