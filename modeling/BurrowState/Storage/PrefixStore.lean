import BurrowState.Storage.KVStore

/-!
# Prefixed stores

`Prefix.Store` wraps a backend as the sub-store under a prefix, `view p M` (`k ↦ M(p ++ k)`).  `Get` and `Has`
read the view, and `Set` and `Delete` update it and leave the view of every non-nesting prefix alone, so
interleaved writes through non-nesting stores act on each view as its own writes alone (`view_runWrites`).
-/

namespace BurrowState

namespace KVStore

/-- The local entry of a physical entry under `p`, when its key extends `p`. -/
def stripEntry (p : Prefix) (e : Bytes × Bytes) : Option (Bytes × Bytes) :=
  if p <+: e.1 then some (e.1.drop p.length, e.2) else none

private theorem stripEntry_eq_some {p : Prefix} {e d : Bytes × Bytes} : stripEntry p e = some d ↔ e = (p ++ d.1, d.2) := by
  obtain ⟨k, v⟩ := e
  obtain ⟨k', v'⟩ := d
  simp only [stripEntry, Prod.mk.injEq]
  split_ifs with h
  · obtain ⟨t, rfl⟩ := h
    simp [eq_comm]
  · simp only [reduceCtorEq, false_iff, not_and]
    rintro rfl
    exact absurd (List.prefix_append p k') h

/-- The logical sub-store under `p`: the map `k ↦ M(p ++ k)`. -/
def view (p : Prefix) (M : KVStore) : KVStore :=
  ⟨M.entries.filterMap (stripEntry p), M.sorted.filterMap _ fun _ _ hab b hb b' hb' => by
    rw [Option.mem_def, stripEntry_eq_some] at hb hb'
    subst hb hb'
    exact (Bytes.append_lt_append_iff p _ _).1 hab⟩

theorem mem_view {p : Prefix} {M : KVStore} {d : Bytes × Bytes} :
    d ∈ (view p M).entries ↔ (p ++ d.1, d.2) ∈ M.entries := by
  simp only [view, List.mem_filterMap, stripEntry_eq_some]
  exact ⟨fun ⟨_, h, he⟩ => he ▸ h, fun h => ⟨_, h, rfl⟩⟩

@[simp] theorem get_view (p : Prefix) (M : KVStore) (k : Bytes) : (view p M).get k = M.get (p ++ k) :=
  Option.ext fun w => by rw [Option.mem_def, Option.mem_def, get_eq_some_iff, get_eq_some_iff, mem_view]

end KVStore

open KVStore

/-- `prefixKVStore`: a backend seen through a prefix (Go's field `prefix` is `keyPrefix`). -/
structure PrefixKVStore where
  keyPrefix : Prefix
  source : KVStore

def Prefix.store (p : Prefix) (source : KVStore) : PrefixKVStore := ⟨p, source⟩

namespace PrefixKVStore

def get (ps : PrefixKVStore) (key : Bytes) : Option Bytes := ps.source.get (ps.keyPrefix.key key)

def has (ps : PrefixKVStore) (key : Bytes) : Bool := ps.source.has (ps.keyPrefix.key key)

/-- `prefixKVStore.Set`, returning the backend it writes to. -/
def set (ps : PrefixKVStore) (key value : Bytes) : KVStore := ps.source.set (ps.keyPrefix.key key) value

/-- `prefixKVStore.Delete`, returning the backend it writes to. -/
def delete (ps : PrefixKVStore) (key : Bytes) : KVStore := ps.source.delete (ps.keyPrefix.key key)

end PrefixKVStore

/-- Two prefixes neither of which extends the other: their sub-stores share no physical key. -/
def NonNesting (p q : Prefix) : Prop := ¬ p <+: q ∧ ¬ q <+: p

instance (p q : Prefix) : Decidable (NonNesting p q) := inferInstanceAs (Decidable (_ ∧ _))

/-! ### Refinement of the view -/

section Refinement

variable (M : KVStore) (p q : Prefix) (k v : Bytes)

theorem store_get : (p.store M).get k = (view p M).get k := by
  simp [PrefixKVStore.get, Prefix.store]

theorem store_has : (p.store M).has k = (view p M).has k := by
  simp [PrefixKVStore.has, Prefix.store, has_eq]

theorem view_set : view p ((p.store M).set k v) = (view p M).set k v :=
  ext fun k' => by simp [PrefixKVStore.set, Prefix.store, List.append_cancel_left_eq]

theorem view_delete : view p ((p.store M).delete k) = (view p M).delete k :=
  ext fun k' => by simp [PrefixKVStore.delete, Prefix.store, List.append_cancel_left_eq]

private theorem append_ne_of_nonNesting {p q : Prefix} (h : NonNesting p q) (k k' : Bytes) : q ++ k' ≠ p ++ k := by
  intro he
  have hq : q <+: p ++ k := he ▸ List.prefix_append q k'
  rcases le_total q.length p.length with hl | hl
  · exact h.2 (List.prefix_of_prefix_length_le hq (List.prefix_append p k) hl)
  · exact h.1 (List.prefix_of_prefix_length_le (List.prefix_append p k) hq hl)

variable {p q}

theorem view_set_of_nonNesting (h : NonNesting p q) : view q ((p.store M).set k v) = view q M :=
  ext fun k' => by simp [PrefixKVStore.set, Prefix.store, append_ne_of_nonNesting h k k']

theorem view_delete_of_nonNesting (h : NonNesting p q) : view q ((p.store M).delete k) = view q M :=
  ext fun k' => by simp [PrefixKVStore.delete, Prefix.store, append_ne_of_nonNesting h k k']

end Refinement

/-! ### Interleaved writes -/

/-- A write through a prefixed store. -/
inductive StoreWrite where
  | set (key value : Bytes)
  | delete (key : Bytes)

namespace StoreWrite

/-- The write through `p.Store(M)`: the backend after it. -/
def apply (p : Prefix) (M : KVStore) : StoreWrite → KVStore
  | set key value => (p.store M).set key value
  | delete key => (p.store M).delete key

/-- The same write on a logical map of its own. -/
def applyLocal (M : KVStore) : StoreWrite → KVStore
  | set key value => M.set key value
  | delete key => M.delete key

end StoreWrite

/-- Writes through the stores of several prefixes over one backend, in order. -/
def runWrites (M : KVStore) (ws : List (Prefix × StoreWrite)) : KVStore :=
  ws.foldl (fun M w => w.2.apply w.1 M) M

/-- Over any interleaving, the view of `q` sees exactly the writes through `q` when no other prefix nests with `q`. -/
theorem view_runWrites (M : KVStore) (q : Prefix) (ws : List (Prefix × StoreWrite))
    (hws : ∀ w ∈ ws, w.1 = q ∨ NonNesting w.1 q) :
    view q (runWrites M ws) = ((ws.filter (fun w => decide (w.1 = q))).map Prod.snd).foldl StoreWrite.applyLocal (view q M) := by
  induction ws generalizing M with
  | nil => rfl
  | cons w ws ih =>
    obtain ⟨p, w⟩ := w
    simp only [runWrites, List.foldl_cons] at ih ⊢
    rw [ih _ fun w' hw' => hws w' (List.mem_cons_of_mem _ hw')]
    rcases hws (p, w) (List.mem_cons_self _ _) with rfl | hd
    · cases w <;> simp [StoreWrite.apply, StoreWrite.applyLocal, view_set, view_delete]
    · have hpq : p ≠ q := fun he => hd.1 (he ▸ List.prefix_refl p)
      cases w <;> simp [StoreWrite.apply, hpq, view_set_of_nonNesting M _ _ hd, view_delete_of_nonNesting M _ hd]

/-- Key-space multiplexing is a faithful refinement: through `p.Store(M)`, `Get` and `Has` answer as the view
`k ↦ M(p ++ k)`, `Set` and `Delete` update it as a map and leave every non-nesting view alone, any interleaving of
writes acts on the view of `q` as the writes through `q` alone, and `Suffix(Key(k)) = k`. -/
theorem prefixKVStore_refines_view :
    (∀ (M : KVStore) (p : Prefix) (k : Bytes),
      (p.store M).get k = (view p M).get k ∧ (p.store M).has k = (view p M).has k) ∧
    (∀ (M : KVStore) (p : Prefix) (k v : Bytes),
      view p ((p.store M).set k v) = (view p M).set k v ∧ view p ((p.store M).delete k) = (view p M).delete k) ∧
    (∀ (M : KVStore) (p q : Prefix) (k v : Bytes), NonNesting p q →
      view q ((p.store M).set k v) = view q M ∧ view q ((p.store M).delete k) = view q M) ∧
    (∀ (M : KVStore) (q : Prefix) (ws : List (Prefix × StoreWrite)), (∀ w ∈ ws, w.1 = q ∨ NonNesting w.1 q) →
      view q (runWrites M ws) =
        ((ws.filter fun w => decide (w.1 = q)).map Prod.snd).foldl StoreWrite.applyLocal (view q M)) ∧
    ∀ (p : Prefix) (k : Bytes), p.suffix (p.key k) = .ok k :=
  ⟨fun M p k => ⟨store_get M p k, store_has M p k⟩, fun M p k v => ⟨view_set M p k v, view_delete M p k⟩,
    fun M _ _ k v h => ⟨view_set_of_nonNesting M k v h, view_delete_of_nonNesting M k h⟩, view_runWrites,
    Prefix.suffix_key⟩

theorem prefixKVStore_refines_view_tree_refs :
    NonNesting [0x6d] [0x72] ∧
      view [0x72] ((Prefix.store [0x6d] KVStore.empty).set [1] [2]) = view [0x72] KVStore.empty ∧
      view [0x72] (runWrites KVStore.empty [([0x6d], .set [1] [2]), ([0x72], .set [3] [4]), ([0x6d], .delete [1])]) =
        (view [0x72] KVStore.empty).set [3] [4] :=
  have h : NonNesting [0x6d] [0x72] := by decide
  ⟨h, (prefixKVStore_refines_view.2.2.1 _ _ _ _ _ h).1, prefixKVStore_refines_view.2.2.2.1 _ _ _ (by decide)⟩

end BurrowState
