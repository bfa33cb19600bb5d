import Tether.Proofs.Storage.Partition

/-!
# Runs of a storage

What is true of a storage after any steps, whichever kind it is.
-/

namespace Tether

open Arena

/-! ## Arenas in words -/

structure Extent where
  start : UInt32
  size : UInt32
deriving DecidableEq

def plus? (x y : UInt32) : Option UInt32 := if x.toNat + y.toNat < 2 ^ 32 then some (x + y) else none

structure Words where
  vacant : List Extent
  used : List Extent
deriving DecidableEq

namespace Words

/-- What is left of a free extent when `size` bytes are cut out at `base`. -/
def remainders? (e : Extent) (base : Nat) (size : UInt32) : Option (List Extent) := do
  let pad := base - e.start.toNat
  let rest := e.size.toNat - pad - size.toNat
  let front := if 0 < pad then [⟨e.start, UInt32.ofNat pad⟩] else []
  if 0 < rest then
    return front ++ [⟨← plus? (UInt32.ofNat base) size, UInt32.ofNat rest⟩]
  else return front

/-- The first place for `size` aligned bytes, if there is one, and the free extents without it. -/
def firstFit? (size align : UInt32) : List Extent → Option (Option (UInt32 × List Extent))
  | [] => some none
  | e :: rest =>
    let base := alignUp e.start.toNat align.toNat
    if base - e.start.toNat + size.toNat ≤ e.size.toNat then
      (remainders? e base size).map fun left => some (UInt32.ofNat base, left ++ rest)
    else (firstFit? size align rest).map (·.map fun (a, l) => (a, e :: l))

/-- Puts an extent before others, joining it with the first of them if they touch. -/
def attach? (e : Extent) : List Extent → Option (List Extent)
  | [] => some [e]
  | f :: rest => do
    if (← plus? e.start e.size) = f.start then return ⟨e.start, ← plus? e.size f.size⟩ :: rest
    else return e :: f :: rest

/-- Puts an extent in its place among free ones and joins it with its neighbours. -/
def insertFree? (e : Extent) : List Extent → Option (List Extent)
  | [] => some [e]
  | f :: rest =>
    if e.start < f.start then attach? e (f :: rest) else (insertFree? e rest).bind (attach? f)

def alloc? (a : Words) (size align : UInt32) : Option (Except Fault (UInt32 × Words)) :=
  let align : UInt32 := if align = 0 then 1 else align
  if size = 0 then some (.error (.invalidInput .heap "zero-size allocation"))
  else if !isPowerOfTwo align.toNat then
    some (.error (.invalidInput .heap s!"alignment {align.toNat} is not a power of two"))
  else
    (firstFit? size align a.vacant).map fun
      | some (base, vacant) => .ok (base, ⟨vacant, ⟨base, size⟩ :: a.used⟩)
      | none => .error (.allocationFailed .heap size.toNat align.toNat)

def free? (a : Words) (address : UInt32) : Option Words :=
  match a.used.find? (·.start == address) with
  | none => some a
  | some e => (insertFree? e a.vacant).map fun vacant => ⟨vacant, a.used.filter (·.start != address)⟩

end Words

def Span.words (s : Span) : Extent := ⟨UInt32.ofNat s.start, UInt32.ofNat s.size⟩

def Span.Fits (s : Span) : Prop := s.stop < 2 ^ 32

def Arena.words (a : Arena) : Words := ⟨a.vacant.map Span.words, a.used.map Span.words⟩

namespace Words

variable {a : Arena} {s t : Span} {l : List Span}

theorem toNat_ofNat {x : Nat} (h : x < 2 ^ 32) : (UInt32.ofNat x).toNat = x := UInt32.toNat_ofNat_of_lt' h

theorem start_lt (h : s.Fits) : s.start < 2 ^ 32 := by
  unfold Span.Fits Span.stop at h
  omega

theorem size_lt (h : s.Fits) : s.size < 2 ^ 32 := by
  unfold Span.Fits Span.stop at h
  omega

theorem toNat_start (h : s.Fits) : s.words.start.toNat = s.start := toNat_ofNat (start_lt h)

theorem toNat_size (h : s.Fits) : s.words.size.toNat = s.size := toNat_ofNat (size_lt h)

theorem plus?_ofNat {x y : Nat} (h : x + y < 2 ^ 32) :
    plus? (UInt32.ofNat x) (UInt32.ofNat y) = some (UInt32.ofNat (x + y)) := by
  unfold plus?
  rw [toNat_ofNat (Nat.lt_of_le_of_lt (Nat.le_add_right x y) h),
    toNat_ofNat (Nat.lt_of_le_of_lt (Nat.le_add_left y x) h), if_pos h, UInt32.ofNat_add]

theorem ofNat_inj {x y : Nat} (hx : x < 2 ^ 32) (hy : y < 2 ^ 32) : UInt32.ofNat x = UInt32.ofNat y ↔ x = y := by
  rw [← UInt32.toNat_inj, toNat_ofNat hx, toNat_ofNat hy]

/-! ### Joining -/

theorem attach?_words (hs : s.Fits) (hl : ∀ t ∈ l, t.Fits) :
    attach? s.words (l.map Span.words) = some ((attach s l).map Span.words) ∧ ∀ u ∈ attach s l, u.Fits := by
  cases l with
  | nil => exact ⟨rfl, by simpa [attach] using hs⟩
  | cons t rest =>
    obtain ⟨ht, hrest⟩ := List.forall_mem_cons.mp hl
    have hstop : plus? s.words.start s.words.size = some (UInt32.ofNat s.stop) := plus?_ofNat hs
    have htouch : UInt32.ofNat s.stop = t.words.start ↔ s.stop = t.start := ofNat_inj hs (start_lt ht)
    simp only [List.map_cons, attach?, hstop, Option.bind_eq_bind, Option.bind_some, htouch, attach]
    split
    · rename_i h
      have hsum : s.size + t.size < 2 ^ 32 := by
        unfold Span.Fits Span.stop at *
        omega
      have hjoin : plus? s.words.size t.words.size = some (UInt32.ofNat (s.size + t.size)) := plus?_ofNat hsum
      refine ⟨by rw [hjoin]; rfl, List.forall_mem_cons.mpr ⟨?_, hrest⟩⟩
      unfold Span.Fits Span.stop at *
      simp only
      omega
    · exact ⟨rfl, List.forall_mem_cons.mpr ⟨hs, hl⟩⟩

theorem insertFree?_words (hs : s.Fits) (hl : ∀ t ∈ l, t.Fits) :
    insertFree? s.words (l.map Span.words) = some ((insertFree s l).map Span.words) ∧
      ∀ u ∈ insertFree s l, u.Fits := by
  induction l with
  | nil => exact ⟨rfl, by simpa [insertFree] using hs⟩
  | cons t rest ih =>
    obtain ⟨ht, hrest⟩ := List.forall_mem_cons.mp hl
    obtain ⟨hback, hfits⟩ := ih hrest
    have hlt : s.words.start < t.words.start ↔ s.start < t.start := by
      rw [UInt32.lt_iff_toNat_lt, toNat_start hs, toNat_start ht]
    simp only [List.map_cons, insertFree?, insertFree, hlt]
    split
    · exact attach?_words hs hl
    · rw [hback, Option.bind_some]
      exact attach?_words ht hfits

/-! ### Cutting out -/

theorem remainders?_words {base : Nat} {size : UInt32} (hs : s.Fits) (hbase : s.start ≤ base)
    (hroom : base - s.start + size.toNat ≤ s.size) :
    remainders? s.words base size = some ((Arena.remainders s (base - s.start) size.toNat).map Span.words) := by
  have hpos : s.start + (base - s.start) = base := by omega
  have hsum : base + size.toNat < 2 ^ 32 := by
    unfold Span.Fits Span.stop at hs
    omega
  have hplus : plus? (UInt32.ofNat base) size = some (UInt32.ofNat (base + size.toNat)) := by
    have := plus?_ofNat hsum
    rwa [UInt32.ofNat_toNat] at this
  simp only [remainders?, remainders, toNat_start hs, toNat_size hs, hplus, hpos,
    Option.bind_eq_bind, Option.bind_some, List.map_append]
  split <;> split <;> rfl

theorem firstFit?_words {size align : UInt32} (halign : 0 < align.toNat) (hl : ∀ t ∈ l, t.Fits) :
    firstFit? size align (l.map Span.words) = some ((firstFit size.toNat align.toNat l).map fun (base, l) =>
        (UInt32.ofNat base, l.map Span.words)) := by
  induction l with
  | nil => rfl
  | cons t rest ih =>
    obtain ⟨ht, hrest⟩ := List.forall_mem_cons.mp hl
    simp only [List.map_cons, firstFit?, firstFit, toNat_start ht, toNat_size ht]
    split
    · rename_i hroom
      rw [remainders?_words ht (le_alignUp halign) hroom]
      simp
    · rw [ih hrest]
      simp [Option.map_map, Function.comp_def]

/-! ### Operations -/

variable (hfits : ∀ s ∈ a.vacant ++ a.used, s.Fits)
include hfits

theorem alloc?_words (size align : UInt32) :
    a.words.alloc? size align = some ((a.alloc size.toNat align.toNat).map fun (base, a) =>
      (UInt32.ofNat base, a.words)) := by
  have hzero : ∀ x : UInt32, x = 0 ↔ x.toNat = 0 := fun x => by
    rw [← UInt32.toNat_inj]
    rfl
  have halign : (if align = 0 then (1 : UInt32) else align).toNat =
      if align.toNat = 0 then 1 else align.toNat := by
    simp only [hzero]
    split <;> rfl
  have hpos : 0 < (if align = 0 then (1 : UInt32) else align).toNat := by
    rw [halign]
    split <;> omega
  have hfit := @firstFit?_words a.vacant size _ hpos fun t ht => hfits t (List.mem_append_left _ ht)
  unfold alloc? alloc words
  simp only [hfit, hzero size]
  rw [halign]
  generalize (if align.toNat = 0 then 1 else align.toNat) = align'
  split
  · rfl
  split
  · rfl
  · rcases firstFit size.toNat align' a.vacant with - | ⟨base, vacant⟩
    · rfl
    · simp [Except.map, Span.words]

theorem free?_words (address : UInt32) : a.words.free? address = some (a.free address.toNat).words := by
  have hused : ∀ s ∈ a.used, (s.words.start == address) = (s.start == address.toNat) := by
    intro s hs
    have hstart := start_lt (hfits s (List.mem_append_right _ hs))
    rw [Bool.eq_iff_iff, beq_iff_eq, beq_iff_eq, ← UInt32.toNat_inj]
    exact iff_of_eq (congrArg (· = _) (toNat_ofNat hstart))
  have hfind : (a.used.map Span.words).find? (·.start == address) = (a.usedAt? address.toNat).map Span.words := by
    rw [List.find?_map, usedAt?, ← List.head?_filter, ← List.head?_filter]
    congr 2
    exact List.filter_congr hused
  have hfilter : (a.used.map Span.words).filter (·.start != address) =
      (a.used.filter (·.start != address.toNat)).map Span.words := by
    rw [List.filter_map]
    congr 1
    refine List.filter_congr fun s hs => ?_
    simp only [Function.comp_apply, bne, hused s hs]
  unfold free? free words
  simp only [hfind, hfilter]
  rcases h : a.usedAt? address.toNat with - | s
  · rfl
  · have hs : s ∈ a.used := List.mem_of_find?_eq_some h
    obtain ⟨hback, -⟩ := @insertFree?_words s a.vacant (hfits s (List.mem_append_right _ hs))
      fun t ht => hfits t (List.mem_append_left _ ht)
    simp [hback]

end Words

/-! ## Steps -/

namespace StorageState

def after (s : StorageState) (steps : List StorageStep) : StorageState := steps.foldl (fun s a => (s.step a).2) s

/-- The account of a client after a step: it gains what it is given and loses what it frees. -/
def account (held : List Span) : StorageStep → StorageReply → List Span
  | .alloc size _, .address base => ⟨base, size⟩ :: held
  | .free address, _ => held.filter (·.start != address)
  | _, _ => held

def held (s : StorageState) (account : List Span) : List StorageStep → List Span
  | [] => account
  | a :: rest => (s.step a).2.held (StorageState.account account a (s.step a).1) rest

def rangeEnd : Option Nat → Nat
  | none => Storage.addressSpace
  | some pages => min (pages * Storage.pageSize) Storage.addressSpace

variable {s s0 : StorageState} {lo hi : Nat}

/-- Whether the bytes of spans are there: in block storage each span has a slice of its size, and
there are no others; linear storage has one slice for all. -/
def Backs (spans : List Span) : Backing → Prop
  | .blocks slices => slices.map (fun (address, slice) => ⟨address, slice.length⟩) = spans
  | .linear _ _ => True

variable {spans : List Span}

theorem arena_alloc {st st' : Storage} {p p' : Pool} {size align base : Nat}
    (hb : Backs spans st.backing) (h : st.alloc p size align = .ok (base, st', p')) :
    st.arena.alloc size align = .ok (base, st'.arena) ∧ Backs (⟨base, size⟩ :: spans) st'.backing := by
  unfold Storage.alloc at h
  rcases halloc : st.arena.alloc size align with f | ⟨c, arena⟩
  · rw [halloc] at h
    split at h <;> simp [Except.map] at h
  · rw [halloc] at h
    split at h
    · simp at h
    all_goals
      obtain ⟨rfl, hst⟩ := Prod.mk.inj (Except.ok.inj h)
      cases hst
      exact ⟨rfl, by simp_all [Backs, Pool.new]⟩

theorem arena_free (st : Storage) (address : Nat) : (st.free address).arena = st.arena.free address := by
  unfold Storage.free
  split <;> rfl

theorem backs_free {st : Storage} (hb : Backs spans st.backing) (address : Nat) :
    Backs (spans.filter (·.start != address)) (st.free address).backing := by
  unfold Storage.free
  split
  · rename_i heq
    rw [heq]
    trivial
  · rename_i slices heq
    rw [heq] at hb
    rw [← hb, List.filter_map]
    rfl

theorem arena_close {st : Storage} (hb : Backs spans st.backing) :
    st.close.arena = st.arena ∧ Backs spans st.close.backing := by
  unfold Storage.close
  split
  · exact ⟨rfl, trivial⟩
  · exact ⟨rfl, hb⟩

/-- The arena divides a range, and what it handed out is a client's account, with bytes behind it. -/
structure Accounts (s : StorageState) (lo hi : Nat) (account : List Span) : Prop where
  partitions : s.storage.arena.Partitions lo hi
  used : s.storage.arena.used = account
  backs : Backs account s.storage.backing

theorem Accounts.step {held : List Span} (h : s.Accounts lo hi held) (a : StorageStep) :
    (s.step a).2.Accounts lo hi (account held a (s.step a).1) := by
  cases a with
  | alloc size align =>
    simp only [StorageState.step]
    split
    · rename_i base storage pool halloc
      obtain ⟨harena, hbacks⟩ := arena_alloc h.backs halloc
      obtain ⟨-, align', vacant, -, -, hb⟩ := alloc_eq_ok harena
      refine ⟨h.partitions.alloc harena, ?_, hbacks⟩
      simp only [account, hb, h.used]
    · exact h
  | free address =>
    refine ⟨?_, ?_, backs_free h.backs address⟩
    · simp only [StorageState.step, arena_free]
      exact h.partitions.free address
    · simp only [StorageState.step, arena_free, used_free, h.used]
      rfl
  | read address length keep | write address data =>
    simp only [StorageState.step]
    split <;> exact ⟨h.partitions, h.used, h.backs⟩
  | poke name offset byte =>
    simp only [StorageState.step]
    split
    · split <;> exact ⟨h.partitions, h.used, h.backs⟩
    · exact h
  | view | size => exact h
  | close =>
    obtain ⟨harena, hbacks⟩ := arena_close h.backs
    refine ⟨?_, ?_, hbacks⟩
    · simp only [StorageState.step, harena]
      exact h.partitions
    · simp only [StorageState.step, harena]
      exact h.used

theorem Accounts.after {held : List Span} (h : s.Accounts lo hi held) (steps : List StorageStep) :
    (s.after steps).Accounts lo hi (s.held held steps) := by
  induction steps generalizing s held with
  | nil => exact h
  | cons a rest ih => exact ih (h.step a)

theorem arena_make {pages : Option Nat} (h : make pages = .ok s0) :
    s0.storage.arena = .ofRange Storage.reserved (rangeEnd pages) ∧ Backs [] s0.storage.backing ∧
      Storage.reserved < rangeEnd pages := by
  cases pages with
  | none =>
    cases h
    exact ⟨rfl, rfl, by decide⟩
  | some n =>
    simp only [make, Storage.linear] at h
    split at h
    · simp [Except.map] at h
    · rename_i hn
      cases h
      refine ⟨rfl, trivial, ?_⟩
      simp only [rangeEnd, Storage.reserved, Storage.pageSize, Storage.addressSpace]
      omega

variable (s)

theorem arena_after_frees (order : List Nat) :
    (s.after (order.map .free)).storage.arena = order.foldl Arena.free s.storage.arena := by
  induction order generalizing s with
  | nil => rfl
  | cons address rest ih =>
    rw [List.map_cons, List.foldl_cons, ← arena_free]
    exact ih _

theorem after_append (first second : List StorageStep) :
    s.after (first ++ second) = (s.after first).after second := List.foldl_append

variable {s}

/-- **Division of the range.** After any steps on a new storage, its arena divides the range of
addresses between spaced free spans and the spans that the client holds; the counters count the
client's account; every allocation and every release computes the same in 32-bit words, without a
sum that wraps; and when the client frees all it holds, in any order, the range is one free span
again. -/
theorem arena_after_steps {pages : Option Nat} (h : make pages = .ok s0) (steps : List StorageStep) :
    let arena := (s0.after steps).storage.arena
    let account := s0.held [] steps
    arena.used = account ∧ Backs account (s0.after steps).storage.backing ∧
      arena.Partitions Storage.reserved (rangeEnd pages) ∧
      (s0.after steps).storage.inUse = (account.map (·.size)).sum ∧
      (s0.after steps).storage.allocations = account.length ∧
      (∀ size align : UInt32, arena.words.alloc? size align =
        some ((arena.alloc size.toNat align.toNat).map fun (base, a) => (UInt32.ofNat base, a.words))) ∧
      (∀ address : UInt32, arena.words.free? address = some (arena.free address.toNat).words) ∧
      ∀ order : List Nat, (∀ t ∈ account, t.start ∈ order) →
        (s0.after (steps ++ order.map .free)).storage.arena = .ofRange Storage.reserved (rangeEnd pages) := by
  obtain ⟨hstart, hback, hlt⟩ := arena_make h
  have hnew : s0.Accounts Storage.reserved (rangeEnd pages) [] := by
    refine ⟨?_, ?_, hback⟩ <;> rw [hstart]
    · exact partitions_ofRange hlt
    · rfl
  obtain ⟨hpart, hused, hbacks⟩ := hnew.after steps
  have hfits : ∀ t ∈ (s0.after steps).storage.arena.vacant ++ (s0.after steps).storage.arena.used, t.Fits := by
    intro t ht
    have hend : rangeEnd pages ≤ Storage.addressSpace := by
      cases pages with
      | none => exact Nat.le_refl _
      | some n => exact Nat.min_le_right _ _
    exact Nat.lt_of_le_of_lt (Nat.le_trans (hpart.stop_le ht) hend) (by decide)
  refine ⟨hused, hbacks, hpart, ?_, ?_, Words.alloc?_words hfits, Words.free?_words hfits, ?_⟩
  · rw [← hused]
    exact hpart.inUse
  · rw [← hused]
    rfl
  · intro order hall
    rw [after_append, arena_after_frees]
    refine (hpart.foldl_free order).eq_ofRange hlt ?_
    rw [used_foldl_free, List.filter_eq_nil_iff]
    intro t ht
    rw [hused] at ht
    simpa using hall t ht

/-- Two allocations of one page with a gap between them for alignment, the first of them freed: the
freed span joins the gap, and freeing the other one makes the page whole. -/
theorem arena_after_steps_page : ∃ s0, make (some 1) = .ok s0 ∧
      (s0.after [.alloc 3 1, .alloc 16 16, .free 8]).storage.arena = ⟨[⟨8, 8⟩, ⟨32, 65504⟩], [⟨16, 16⟩], 16⟩ ∧
      (s0.after [.alloc 3 1, .alloc 16 16, .free 8]).storage.arena.Partitions 8 65536 ∧
      (s0.after ([.alloc 3 1, .alloc 16 16, .free 8] ++ [16, 99].map .free)).storage.arena = .ofRange 8 65536 := by
  refine ⟨_, rfl, rfl, ?_⟩
  have hmake : make (some 1) = .ok _ := rfl
  obtain ⟨-, -, hpart, -, -, -, -, hall⟩ := arena_after_steps hmake [.alloc 3 1, .alloc 16 16, .free 8]
  exact ⟨hpart, hall [16, 99] (by decide)⟩

end StorageState

end Tether
