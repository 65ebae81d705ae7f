import BurrowState.Storage.Prefix
import Mathlib.Data.List.Sort

/-!
# The physical key-value backend and its iterators

The backend (`dbm.DB`) is not in the repository; the spec fixes its contract (§3, §6): a finite map of byte strings
with `Get/Has/Set/Delete`, and iterators over key ranges in order.  `KVStore` keeps its entries sorted as part of
the type; its iterators are `ListIterator`s, and `drain` is the loop every caller runs.
-/

namespace BurrowState

/-- Modelled from the spec: the physical key-value backend, its entries in ascending key order. -/
structure KVStore where
  entries : List (Bytes × Bytes)
  sorted : entries.Pairwise (fun a b => a.1 < b.1)

namespace KVStore

def empty : KVStore := ⟨[], List.Pairwise.nil⟩

/-- `Get`: the value under `k`, `none` (Go's `nil`) for an absent key. -/
def get (M : KVStore) (k : Bytes) : Option Bytes := (M.entries.find? (fun e => e.1 = k)).map Prod.snd

def has (M : KVStore) (k : Bytes) : Bool := (M.get k).isSome

/-- Insertion of `(k, v)` into ascending entries, replacing an entry with key `k`. -/
def insertEntry (k v : Bytes) : List (Bytes × Bytes) → List (Bytes × Bytes)
  | [] => [(k, v)]
  | e :: es => if k < e.1 then (k, v) :: e :: es else if k = e.1 then (k, v) :: es else e :: insertEntry k v es

private theorem mem_insertEntry_iff {k v : Bytes} {e : Bytes × Bytes} {es : List (Bytes × Bytes)}
    (hs : es.Pairwise (fun a b => a.1 < b.1)) : e ∈ insertEntry k v es ↔ e = (k, v) ∨ e ∈ es ∧ e.1 ≠ k := by
  induction es with
  | nil => simp [insertEntry]
  | cons x es ih =>
    rw [List.pairwise_cons] at hs
    simp only [insertEntry]
    split_ifs with h₁ h₂
    · have hne : ∀ y ∈ x :: es, y.1 ≠ k := fun y hy =>
        ((List.mem_cons.1 hy).elim (fun h => h ▸ h₁) fun hy => h₁.trans (hs.1 y hy)).ne'
      rw [List.mem_cons]
      exact or_congr_right ⟨fun h => ⟨h, hne e h⟩, And.left⟩
    · subst h₂
      rw [List.mem_cons]
      exact or_congr_right ⟨fun h => ⟨List.mem_cons_of_mem _ h, (hs.1 e h).ne'⟩,
        fun ⟨h, hk⟩ => (List.mem_cons.1 h).resolve_left fun he => hk (he ▸ rfl)⟩
    · have hx : e = x → e.1 ≠ k := fun he => he ▸ Ne.symm h₂
      rw [List.mem_cons, ih hs.2, List.mem_cons, or_and_right, and_iff_left_of_imp hx, or_left_comm]

private theorem insertEntry_sorted (k v : Bytes) {es : List (Bytes × Bytes)}
    (h : es.Pairwise (fun a b => a.1 < b.1)) : (insertEntry k v es).Pairwise (fun a b => a.1 < b.1) := by
  induction es with
  | nil => simp [insertEntry]
  | cons x es ih =>
    rw [List.pairwise_cons] at h
    simp only [insertEntry]
    split_ifs with h₁ h₂
    · exact List.Pairwise.cons (fun y hy => (List.mem_cons.1 hy).elim (· ▸ h₁)
        fun hy => h₁.trans (h.1 y hy)) (List.Pairwise.cons h.1 h.2)
    · exact List.Pairwise.cons (fun y hy => h₂ ▸ h.1 y hy) h.2
    · refine List.Pairwise.cons (fun y hy => ?_) (ih h.2)
      rcases (mem_insertEntry_iff h.2).1 hy with rfl | hy
      · exact lt_of_le_of_ne (not_lt.1 h₁) (Ne.symm h₂)
      · exact h.1 y hy.1

def set (M : KVStore) (k v : Bytes) : KVStore := ⟨insertEntry k v M.entries, insertEntry_sorted k v M.sorted⟩

def delete (M : KVStore) (k : Bytes) : KVStore :=
  ⟨M.entries.filter (fun e => decide (e.1 ≠ k)), M.sorted.filter _⟩

/-! ### Lookups -/

theorem get_eq_some_iff (M : KVStore) (k v : Bytes) : M.get k = some v ↔ (k, v) ∈ M.entries := by
  obtain ⟨es, hs⟩ := M
  simp only [get]
  induction es with
  | nil => simp
  | cons e es ih =>
    rw [List.pairwise_cons] at hs
    rw [List.find?_cons, List.mem_cons]
    by_cases he : e.1 = k
    · have hk : (k, v) ∉ es := fun hm => (hs.1 (k, v) hm).ne he
      simp only [he, decide_True, Option.map_some', Option.some.injEq, hk, or_false]
      exact ⟨fun h => Prod.ext he.symm h.symm, fun h => h ▸ rfl⟩
    · simp only [he, decide_False, ih hs.2]
      exact ⟨.inr, fun h => h.resolve_left fun h' => he (by rw [← h'])⟩

/-- Two backends with the same lookups are the same backend. -/
theorem ext {M N : KVStore} (h : ∀ k, M.get k = N.get k) : M = N := by
  have hmem : ∀ e, e ∈ M.entries ↔ e ∈ N.entries := fun e => by
    rw [← get_eq_some_iff, ← get_eq_some_iff, h]
  have nodup : ∀ L : KVStore, L.entries.Nodup := fun L =>
    List.Pairwise.imp (fun hab => ne_of_apply_ne Prod.fst (ne_of_lt hab)) L.sorted
  have : IsAntisymm (Bytes × Bytes) (fun a b => a.1 < b.1) := ⟨fun _ _ h₁ h₂ => absurd (h₁.trans h₂) (lt_irrefl _)⟩
  obtain ⟨es, _⟩ := M
  obtain ⟨fs, _⟩ := N
  congr
  exact List.eq_of_perm_of_sorted ((List.perm_ext_iff_of_nodup (nodup _) (nodup _)).2 hmem) ‹_› ‹_›

@[simp] theorem get_empty (k : Bytes) : empty.get k = none := rfl

@[simp] theorem get_set (M : KVStore) (k v k' : Bytes) :
    (M.set k v).get k' = if k' = k then some v else M.get k' := by
  refine Option.ext fun w => ?_
  rw [Option.mem_def, Option.mem_def, get_eq_some_iff]
  simp only [set, mem_insertEntry_iff M.sorted, Prod.mk.injEq]
  split_ifs with hk
  · subst hk; simp [eq_comm]
  · simp [hk, get_eq_some_iff]

@[simp] theorem get_delete (M : KVStore) (k k' : Bytes) :
    (M.delete k).get k' = if k' = k then none else M.get k' := by
  refine Option.ext fun w => ?_
  rw [Option.mem_def, Option.mem_def, get_eq_some_iff]
  simp only [delete, List.mem_filter, decide_eq_true_eq]
  split_ifs with hk
  · simp [hk]
  · simp [hk, get_eq_some_iff]

private theorem get_foldl_set {es : List (Bytes × Bytes)} (hs : es.Pairwise (fun a b => a.1 < b.1)) (N : KVStore)
    (k : Bytes) :
    (es.foldl (fun N e => N.set e.1 e.2) N).get k = ((es.find? fun e => e.1 = k).map Prod.snd).or (N.get k) := by
  induction es generalizing N with
  | nil => simp
  | cons e es ih =>
    rw [List.foldl_cons, ih hs.of_cons, get_set]
    by_cases hk : e.1 = k
    · have hnone : es.find? (fun e => e.1 = k) = none :=
        List.find?_eq_none.2 fun x hx => by simpa [← hk] using ne_of_gt (List.rel_of_pairwise_cons hs hx)
      simp [hnone, hk]
    · simp [hk, Ne.symm hk]

/-- Setting the entries of a backend into the empty backend, in order, rebuilds it. -/
theorem foldl_set_entries (M : KVStore) : M.entries.foldl (fun N e => N.set e.1 e.2) empty = M :=
  ext fun k => by rw [get_foldl_set M.sorted, get_empty, Option.or_none]; rfl

theorem has_eq (M : KVStore) (k : Bytes) : M.has k = (M.get k).isSome := rfl

/-! ### Iteration -/

/-- `start ≤ k < end`, an absent bound (`nil`) being unbounded: the range of `Iterator(start, end)`. -/
def inRange (start «end» : Option Bytes) (k : Bytes) : Bool :=
  start.all (fun s => decide (s ≤ k)) && «end».all (fun e => decide (k < e))

/-- `end < k ≤ start`: the range of `ReverseIterator(start, end)`, inclusive at the start (the top). -/
def inReverseRange (start «end» : Option Bytes) (k : Bytes) : Bool :=
  start.all (fun s => decide (k ≤ s)) && «end».all (fun e => decide (e < k))

end KVStore

/-- The `dbm.Iterator` interface; `valid` may move the iterator, and `key`, `value`, `next` panic on an invalid one. -/
class DBIterator (σ : Type) where
  valid : σ → Except GoError (Bool × σ)
  key : σ → Except GoError Bytes
  value : σ → Except GoError Bytes
  next : σ → Except GoError σ
  close : σ → σ

/-- Modelled from the spec: an iterator of the backend, at the first of the entries it has still to visit. -/
structure ListIterator where
  entries : List (Bytes × Bytes)
  closed : Bool

instance : DBIterator ListIterator where
  valid it := .ok (!it.closed && !it.entries.isEmpty, it)
  key it := match it.closed, it.entries with
    | false, e :: _ => .ok e.1
    | _, _ => .error (.panic "iterator is invalid")
  value it := match it.closed, it.entries with
    | false, e :: _ => .ok e.2
    | _, _ => .error (.panic "iterator is invalid")
  next it := match it.closed, it.entries with
    | false, _ :: es => .ok ⟨es, false⟩
    | _, _ => .error (.panic "iterator is invalid")
  close it := ⟨it.entries, true⟩

namespace ListIterator

variable (es : List (Bytes × Bytes)) (e : Bytes × Bytes) (closed : Bool)

@[simp] theorem valid_eq : DBIterator.valid (⟨es, closed⟩ : ListIterator) = .ok (!closed && !es.isEmpty, ⟨es, closed⟩) :=
  rfl

@[simp] theorem key_cons : DBIterator.key (⟨e :: es, false⟩ : ListIterator) = .ok e.1 := rfl

@[simp] theorem value_cons : DBIterator.value (⟨e :: es, false⟩ : ListIterator) = .ok e.2 := rfl

@[simp] theorem next_cons : DBIterator.next (⟨e :: es, false⟩ : ListIterator) = .ok ⟨es, false⟩ := rfl

@[simp] theorem close_eq : DBIterator.close (⟨es, closed⟩ : ListIterator) = ⟨es, true⟩ := rfl

end ListIterator

namespace KVStore

/-- Modelled from the spec: `Iterator(start, end)` visits the entries with `start ≤ key < end`, ascending. -/
def iterator (M : KVStore) (start «end» : Option Bytes) : ListIterator :=
  ⟨M.entries.filter (fun e => inRange start «end» e.1), false⟩

/-- Modelled from the spec: `ReverseIterator(start, end)` visits the entries with `end < key ≤ start`, descending. -/
def reverseIterator (M : KVStore) (start «end» : Option Bytes) : ListIterator :=
  ⟨(M.entries.filter (fun e => inReverseRange start «end» e.1)).reverse, false⟩

end KVStore

/-- The callers' loop `for it.Valid() { it.Key(); it.Value(); it.Next() }`, returning the pairs it reads; `fuel`
bounds the rounds. -/
def drain {σ : Type} [DBIterator σ] : Nat → σ → Except GoError (List (Bytes × Bytes))
  | 0, _ => .ok []
  | fuel + 1, it => do
    let (ok, it) ← DBIterator.valid it
    if ok then
      let k ← DBIterator.key it
      let v ← DBIterator.value it
      let it ← DBIterator.next it
      let rest ← drain fuel it
      pure ((k, v) :: rest)
    else pure []

/-- `Visits it es`: on an entry `Valid()` holds without moving the iterator, `Key()` and `Value()` read the entry
and `Next()` visits the rest; after the last entry `Valid()` is false. -/
inductive Visits {σ : Type} [DBIterator σ] : σ → List (Bytes × Bytes) → Prop
  | nil {it it' : σ} : DBIterator.valid it = .ok (false, it') → Visits it []
  | cons {it it' : σ} {e : Bytes × Bytes} {es : List (Bytes × Bytes)} :
      DBIterator.valid it = .ok (true, it) → DBIterator.key it = .ok e.1 → DBIterator.value it = .ok e.2 →
      DBIterator.next it = .ok it' → Visits it' es → Visits it (e :: es)

/-- A backend iterator visits its entries. -/
theorem visits_listIterator (es : List (Bytes × Bytes)) : Visits (⟨es, false⟩ : ListIterator) es := by
  induction es with
  | nil => exact .nil rfl
  | cons e es ih => exact .cons rfl rfl rfl rfl ih

/-- The loop of the callers yields what the iterator visits, given one round more than there are entries. -/
theorem drain_of_visits {σ : Type} [DBIterator σ] {it : σ} {es : List (Bytes × Bytes)} (h : Visits it es)
    {fuel : Nat} (hf : es.length < fuel) : drain fuel it = .ok es := by
  induction h generalizing fuel with
  | nil hv =>
    obtain ⟨n, rfl⟩ : ∃ n, fuel = n + 1 := ⟨fuel - 1, by simp at hf; omega⟩
    simp [drain, hv]
  | cons hv hk hval hn _ ih =>
    obtain ⟨n, rfl⟩ : ∃ n, fuel = n + 1 := ⟨fuel - 1, by simp at hf; omega⟩
    simp [drain, hv, hk, hval, hn, ih (show _ < n by simp at hf; omega)]

end BurrowState
