import BurrowState.Execution.State

/-!
# Reading the state

The readers of `execution.State`: point lookups in the tree, and the loops of `IterateAccounts`, `IterateStorage`,
`IterateNames` and `GetBlocks`, one loop (`iterateLoop`) with its own reading of an entry.  Over the view of a tag a
consumer that never stops is passed the values of the view in key order (`iterateLoop_view_exact`).
-/

namespace BurrowState

/-- `prefixKVStore.Iterator`; the stores of the state are built from prefixes that are not `nil`. -/
def PrefixKVStore.iterator (ps : PrefixKVStore) (start «end» : Option Bytes) : PrefixIterator ListIterator :=
  Prefix.iterator (some ps.keyPrefix) ps.source.iterator start «end»

theorem PrefixKVStore.visits_iterator (ps : PrefixKVStore) (start «end» : Option Bytes) :
    Visits (ps.iterator start «end»)
      ((KVStore.view ps.keyPrefix ps.source).entries.filter fun e => KVStore.inRange start «end» e.1) :=
  BurrowState.visits_iterator ps.keyPrefix ps.source (fun _ _ => visits_listIterator _) start «end»

/-- The loop of the iterating readers: while the iterator is valid, `read` turns an entry into the consumer's
argument or an error that ends it; it returns the arguments and `(stopped, err)`; `fuel` bounds the rounds. -/
def iterateLoop {σ α : Type} [DBIterator σ] (read : Bytes → Bytes → Except GoError (Except GoError α))
    (consumer : α → Bool) : Nat → σ → Except GoError (List α × Bool × Option GoError)
  | 0, _ => .ok ([], false, none)
  | fuel + 1, it => do
    let (ok, it) ← DBIterator.valid it
    if ok then do
      let k ← DBIterator.key it
      let v ← DBIterator.value it
      match ← read k v with
      | .error err => pure ([], true, some err)
      | .ok a =>
        if consumer a then pure ([a], true, none) else do
          let it ← DBIterator.next it
          let (as, r) ← iterateLoop read consumer fuel it
          pure (a :: as, r)
    else pure ([], false, none)

namespace State

variable (env : Collaborators)

/-- `State.GetAccount`. -/
def getAccount (s : State) (address : Address) : Except GoError (Option Account) :=
  match s.tree.get (accountKey address) with
  | none => .ok none
  | some accBytes => some <$> env.account.decode accBytes

/-- `State.GetStorage`: an absent slot pads to the zero word. -/
def getStorage (s : State) (address : Address) (key : Word256) : Except GoError Word256 :=
  leftPadWord256 ((s.tree.get (storageKey address key)).getD [])

/-- `State.GetName`. -/
def getName (s : State) (name : Bytes) : Except GoError (Option Entry) :=
  match s.tree.get (nameKey name) with
  | none => .ok none
  | some entryBytes => some <$> env.entry.decode entryBytes

/-- `State.GetBlock`: reads the tree; an absent or empty value is no block. -/
def getBlock (s : State) (height : UInt64) : Except GoError (Option BlockExecution) :=
  let bs := (s.tree.get (blockRefKeyFormat.key [uint64BE height])).getD []
  if bs.length = 0 then .ok none else some <$> env.block.decode bs

/-- `State.GetTx`: reads the tree.  `Scan` panics on a reference that does not scan (the zeros of `new(uint64)`
are then never read); a `nil` block is dereferenced, which panics. -/
def getTx (s : State) (txHash : Bytes) : Except GoError (Option TxExecution) :=
  let bs := (s.tree.get (txKeyFormat.key [txHash])).getD []
  if bs.length = 0 then .ok none else do
    let segments ← txRefKeyFormat.mustScan bs
    let (height, index) := match segments with
      | [h, i] => (getUint64BE h, getUint64BE i)
      | _ => (0, 0)
    match s.getBlock env height with
    | .error _ => .error (.error "error getting block %v containing tx %X")
    | .ok none => .error (.panic "runtime error: invalid memory address or nil pointer dereference")
    | .ok (some be) =>
      if h : index.toNat < be.txExecutions.length then .ok (some (be.txExecutions.get ⟨index.toNat, h⟩))
      else .error (.error "retrieved index %v in block %v for tx %X but block only contains %v TxExecutions")

def readAccount (_key value : Bytes) : Except GoError (Except GoError Account) :=
  pure ((env.account.decode value).mapError fun _ => .error "IterateAccounts could not decode account: %v")

/-- `State.IterateAccounts`. -/
def iterateAccounts (s : State) (consumer : Account → Bool) :
    Except GoError (List Account × Bool × Option GoError) :=
  iterateLoop (readAccount env) consumer (s.tree.readTree.entries.length + 1)
    (accountKeyFormat.iterator s.tree.iterator none none)

/-- The reading of an entry in `IterateStorage`: a key or value that is not a word is an error. -/
def readStorage (key value : Bytes) : Except GoError (Except GoError (Word256 × Word256)) :=
  if key.length ≠ word256Length then pure (.error (.error "key '%X' stored for account %s is not a %v-byte word"))
  else if value.length ≠ word256Length then
    pure (.error (.error "value '%X' stored for account %s is not a %v-byte word"))
  else do
    let k ← leftPadWord256 key
    let v ← leftPadWord256 value
    pure (.ok (k, v))

/-- `State.IterateStorage`. -/
def iterateStorage (s : State) (address : Address) (consumer : Word256 × Word256 → Bool) :
    Except GoError (List (Word256 × Word256) × Bool × Option GoError) :=
  iterateLoop readStorage consumer (s.tree.readTree.entries.length + 1)
    ((storageKeyFormat.fix [address.val]).iterator s.tree.iterator none none)

def readName (_key value : Bytes) : Except GoError (Except GoError Entry) :=
  pure ((env.entry.decode value).mapError fun _ => .error "State.IterateNames() could not iterate over names: %v")

/-- `State.IterateNames`. -/
def iterateNames (s : State) (consumer : Entry → Bool) : Except GoError (List Entry × Bool × Option GoError) :=
  iterateLoop (readName env) consumer (s.tree.readTree.entries.length + 1)
    (nameKeyFormat.iterator s.tree.iterator none none)

def readBlock (_key value : Bytes) : Except GoError (Except GoError BlockExecution) :=
  pure ((env.block.decode value).mapError fun _ => .error "error unmarshalling ExecutionEvent in GetEvents: %v")

/-- `State.GetBlocks`: the tag of `blockRefKeyFormat` over the reference space, between the height segments. -/
def getBlocks (s : State) (startHeight endHeight : UInt64) (consumer : BlockExecution → Bool) :
    Except GoError (List BlockExecution × Bool × Option GoError) :=
  let kf := blockRefKeyFormat
  iterateLoop (readBlock env) consumer (s.cacheDB.kv.entries.length + 1)
    (kf.iterator s.refs.iterator (some (kf.suffix [uint64BE startHeight])) (some (kf.suffix [uint64BE endHeight])))

/-- `State.Hash`. -/
def hash (s : State) : Bytes := s.tree.hash

end State

/-! ### Loops with a consumer that never stops -/

section Loop

open KVStore

variable {α β : Type} {R : α → β → Prop}

theorem forall₂_mem_left {l₁ : List α} {l₂ : List β} (h : List.Forall₂ R l₁ l₂) {a : α} (ha : a ∈ l₁) :
    ∃ b ∈ l₂, R a b := by
  induction h with
  | nil => cases ha
  | cons hr _ ih =>
    rcases List.mem_cons.1 ha with rfl | ha
    · exact ⟨_, List.mem_cons_self _ _, hr⟩
    · obtain ⟨b, hb, h⟩ := ih ha
      exact ⟨b, List.mem_cons_of_mem _ hb, h⟩

private theorem forall₂_mem_right {l₁ : List α} {l₂ : List β} (h : List.Forall₂ R l₁ l₂) {b : β} (hb : b ∈ l₂) :
    ∃ a ∈ l₁, R a b := by
  induction h with
  | nil => cases hb
  | cons hr _ ih =>
    rcases List.mem_cons.1 hb with rfl | hb
    · exact ⟨_, List.mem_cons_self _ _, hr⟩
    · obtain ⟨a, ha, h⟩ := ih hb
      exact ⟨a, List.mem_cons_of_mem _ ha, h⟩

private theorem forall₂_map_eq {γ : Type} {l₁ : List α} {l₂ : List β} (h : List.Forall₂ R l₁ l₂) {f : β → γ} {g : α → γ}
    (hfg : ∀ a ∈ l₁, ∀ b, R a b → f b = g a) : l₂.map f = l₁.map g := by
  induction h with
  | nil => rfl
  | cons hr _ ih =>
    simp only [List.map_cons, hfg _ (List.mem_cons_self _ _) _ hr,
      ih fun a ha => hfg a (List.mem_cons_of_mem _ ha)]

private theorem forall₂_of_forall_exists {l₁ : List α} (h : ∀ a ∈ l₁, ∃ b, R a b) : ∃ l₂, List.Forall₂ R l₁ l₂ := by
  induction l₁ with
  | nil => exact ⟨[], .nil⟩
  | cons a l₁ ih =>
    obtain ⟨b, hb⟩ := h a (List.mem_cons_self _ _)
    obtain ⟨l₂, hl⟩ := ih fun a ha => h a (List.mem_cons_of_mem _ ha)
    exact ⟨b :: l₂, .cons hb hl⟩

/-- With a consumer that never stops, the loop over an iterator visiting `es` passes `as` iff each entry reads to
its value in `as`. -/
theorem iterateLoop_visits {σ : Type} [DBIterator σ] (read : Bytes → Bytes → Except GoError (Except GoError α))
    {it : σ} {es : List (Bytes × Bytes)} (h : Visits it es) {fuel : Nat} (hf : es.length < fuel) (as : List α) :
    iterateLoop read (fun _ => false) fuel it = .ok (as, false, none) ↔
      List.Forall₂ (fun e a => read e.1 e.2 = .ok (.ok a)) es as := by
  induction h generalizing fuel as with
  | nil hv =>
    obtain ⟨n, rfl⟩ : ∃ n, fuel = n + 1 := ⟨fuel - 1, by simp at hf; omega⟩
    cases as <;> simp [iterateLoop, hv]
  | @cons it it' e es hv hk hval hn _ ih =>
    obtain ⟨n, rfl⟩ : ∃ n, fuel = n + 1 := ⟨fuel - 1, by simp at hf; omega⟩
    have ih := ih (show es.length < n by simp at hf; omega)
    rcases hr : read e.1 e.2 with err | err | a
    · cases as <;> simp [iterateLoop, hv, hk, hval, hr]
    · cases as <;> simp [iterateLoop, hv, hk, hval, hr]
    · cases as with
      | nil => simp [iterateLoop, hv, hk, hval, hr, hn, except_bind_eq_ok]
      | cons a' as =>
        simp only [iterateLoop, hv, hk, hval, hr, hn, except_ok_bind, if_true, Bool.false_eq_true, if_false,
          List.forall₂_cons, ← ih as]
        rcases iterateLoop read (fun _ => false) n it' with _ | ⟨bs, r⟩ <;> simp [and_assoc]

theorem iterateLoop_view (M : KVStore) (p : Prefix) (read : Bytes → Bytes → Except GoError (Except GoError α))
    (hread : ∀ e ∈ (view p M).entries, ∃ a, read e.1 e.2 = .ok (.ok a)) :
    ∃ as, iterateLoop read (fun _ => false) (M.entries.length + 1) (Prefix.iterator (some p) M.iterator none none) =
      .ok (as, false, none) ∧ List.Forall₂ (fun e a => read e.1 e.2 = .ok (.ok a)) (view p M).entries as := by
  have h := visits_iterator p M (fun _ _ => visits_listIterator _) none none
  simp only [KVStore.inRange, Option.all_none, Bool.and_self, List.filter_true] at h
  obtain ⟨as, has⟩ := forall₂_of_forall_exists hread
  exact ⟨as, (iterateLoop_visits read h (Nat.lt_succ_of_le (List.length_filterMap_le _ _)) as).2 has, has⟩

/-- Over the prefixed iteration of a backend, a consumer that never stops is passed exactly the values satisfying
`P`, in key order, when the entries of the view read to exactly those values. -/
theorem iterateLoop_view_exact (M : KVStore) (p : Prefix) (read : Bytes → Bytes → Except GoError (Except GoError α))
    (key : α → Bytes) (P : α → Prop) (hread : ∀ e ∈ (view p M).entries, ∃ a, read e.1 e.2 = .ok (.ok a))
    (hsound : ∀ e ∈ (view p M).entries, ∀ a, read e.1 e.2 = .ok (.ok a) → P a ∧ key a = e.1)
    (hcomplete : ∀ a, P a → ∃ e ∈ (view p M).entries, read e.1 e.2 = .ok (.ok a)) :
    ∃ L, iterateLoop read (fun _ => false) (M.entries.length + 1) (Prefix.iterator (some p) M.iterator none none) =
      .ok (L, false, none) ∧ (L.map key).Pairwise (· < ·) ∧ ∀ a, a ∈ L ↔ P a := by
  obtain ⟨L, hL, hf⟩ := iterateLoop_view M p read hread
  have hmap : L.map key = (view p M).entries.map Prod.fst := forall₂_map_eq hf fun e he a hr => (hsound e he a hr).2
  refine ⟨L, hL, hmap ▸ List.pairwise_map.2 (view p M).sorted, fun a => ⟨fun ha => ?_, fun ha => ?_⟩⟩
  · obtain ⟨e, he, hr⟩ := forall₂_mem_right hf ha
    exact (hsound e he a hr).1
  · obtain ⟨e, he, hr⟩ := hcomplete a ha
    obtain ⟨a', ha', hr'⟩ := forall₂_mem_left hf he
    rw [hr] at hr'
    cases hr'
    exact ha'

end Loop

end BurrowState
