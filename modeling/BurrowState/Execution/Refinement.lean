import BurrowState.Execution.Run

/-!
# The state store refines a store of maps

The abstract store (`Model`): accounts by address, each address's words defaulting to zero, and name entries by
name; a call that returns `nil` acts on it as a map update (`Model.apply`).  The tree represents a model
(`Represents`), every call keeps that (`exec_represents`), and the readers of a represented tree answer as the
model (`ReadsAs`), so the state store refines it (`state_refines_model`).
-/

namespace BurrowState

open State KVStore

/-- The abstract state store: accounts by address, each address's words defaulting to zero, entries by name. -/
structure Model where
  accounts : Address → Option Account
  storage : Address → Word256 → Word256
  names : Bytes → Option Entry

namespace Model

def empty : Model := ⟨fun _ => none, fun _ _ => zero256, fun _ => none⟩

/-- A call of the write view that returned `nil`, on the model. -/
def apply (m : Model) : Write → Model
  | .updateAccount (some acc) => { m with accounts := Function.update m.accounts acc.address (some acc) }
  | .updateAccount none => m
  | .removeAccount address => { m with accounts := Function.update m.accounts address none }
  | .setStorage address key value =>
    { m with storage := Function.update m.storage address (Function.update (m.storage address) key value) }
  | .updateName entry => { m with names := Function.update m.names entry.name (some entry) }
  | .removeName name => { m with names := Function.update m.names name none }
  | .addBlock _ => m

/-- The model of the calls `ws`, from the empty store. -/
def ofWrites (ws : List Write) : Model := ws.foldl apply empty

variable (env : Collaborators)

/-- The value the tree holds under a tree key in a store whose model is `m`. -/
def valueAt (m : Model) : TreeKey → Option Bytes
  | .account address => (m.accounts address).bind fun acc => (env.account.encode acc).toOption
  | .storage address key => if m.storage address key = zero256 then none else some (m.storage address key).val
  | .name name => (m.names name).bind fun entry => (env.entry.encode entry).toOption

/-- Every account of the model is under its own address and encodes; so is every name entry. -/
structure Consistent (m : Model) : Prop where
  accounts : ∀ a acc, m.accounts a = some acc → acc.address = a ∧ ∃ bs, env.account.encode acc = .ok bs
  names : ∀ n e, m.names n = some e → e.name = n ∧ ∃ bs, env.entry.encode e = .ok bs

private theorem consistent_empty : empty.Consistent env := ⟨fun _ _ h => Option.noConfusion h, fun _ _ h => Option.noConfusion h⟩

end Model

variable (env : Collaborators)

/-- The tree contents `t` represent `m`: each tree key holds its value in `m`, and no other key is present. -/
def Represents (m : Model) (t : KVStore) : Prop := ∀ k, t.get k = (decodeTreeKey k).bind (m.valueAt env)

private theorem represents_empty : Represents env Model.empty KVStore.empty := fun k => by
  cases decodeTreeKey k with
  | none => rfl
  | some tk => cases tk <;> simp [Model.valueAt, Model.empty]

private theorem Represents.get_bytes {m : Model} {t : KVStore} (h : Represents env m t) (tk : TreeKey) :
    t.get tk.bytes = m.valueAt env tk := by
  rw [h, decodeTreeKey_bytes]
  rfl

theorem Represents.write {m m' : Model} {t t' : KVStore} (h : Represents env m t) (tk : TreeKey)
    (v : Option Bytes) (hval : ∀ tk', m'.valueAt env tk' = if tk' = tk then v else m.valueAt env tk')
    (hget : ∀ k, t'.get k = if k = tk.bytes then v else t.get k) : Represents env m' t' := by
  intro k
  rw [hget, h k]
  by_cases hk : k = tk.bytes
  · subst hk
    simp [decodeTreeKey_bytes, hval]
  · rw [if_neg hk]
    cases hd : decodeTreeKey k with
    | none => rfl
    | some tk' =>
      have hne : tk' ≠ tk := fun he => hk (by rw [← he, bytes_of_decodeTreeKey hd])
      simp [hval, hne]

/-! ### One call of the write view -/

section Apply

variable (m : Model)

private theorem valueAt_updateAccount (acc : Account) {bs : Bytes} (henc : env.account.encode acc = .ok bs) (tk : TreeKey) :
    (m.apply (.updateAccount (some acc))).valueAt env tk =
      if tk = .account acc.address then some bs else m.valueAt env tk := by
  cases tk with
  | account a => by_cases ha : a = acc.address <;> simp [Model.valueAt, Model.apply, ha, henc, Except.toOption]
  | storage a k => simp [Model.valueAt, Model.apply]
  | name n => simp [Model.valueAt, Model.apply]

private theorem valueAt_removeAccount (address : Address) (tk : TreeKey) :
    (m.apply (.removeAccount address)).valueAt env tk = if tk = .account address then none else m.valueAt env tk := by
  cases tk with
  | account a => by_cases ha : a = address <;> simp [Model.valueAt, Model.apply, ha]
  | storage a k => simp [Model.valueAt, Model.apply]
  | name n => simp [Model.valueAt, Model.apply]

private theorem valueAt_setStorage (address : Address) (key value : Word256) (tk : TreeKey) :
    (m.apply (.setStorage address key value)).valueAt env tk =
      if tk = .storage address key then (if value = zero256 then none else some value.val) else m.valueAt env tk := by
  cases tk with
  | account a => simp [Model.valueAt, Model.apply]
  | storage a k =>
    by_cases ha : a = address <;> by_cases hk : k = key <;> simp [Model.valueAt, Model.apply, ha, hk]
  | name n => simp [Model.valueAt, Model.apply]

private theorem valueAt_updateName (entry : Entry) {bs : Bytes} (henc : env.entry.encode entry = .ok bs) (tk : TreeKey) :
    (m.apply (.updateName entry)).valueAt env tk = if tk = .name entry.name then some bs else m.valueAt env tk := by
  cases tk with
  | account a => simp [Model.valueAt, Model.apply]
  | storage a k => simp [Model.valueAt, Model.apply]
  | name n => by_cases hn : n = entry.name <;> simp [Model.valueAt, Model.apply, hn, henc, Except.toOption]

private theorem valueAt_removeName (name : Bytes) (tk : TreeKey) :
    (m.apply (.removeName name)).valueAt env tk = if tk = .name name then none else m.valueAt env tk := by
  cases tk with
  | account a => simp [Model.valueAt, Model.apply]
  | storage a k => simp [Model.valueAt, Model.apply]
  | name n => by_cases hn : n = name <;> simp [Model.valueAt, Model.apply, hn]

private theorem Model.Consistent.apply_updateAccount {m : Model} (hc : m.Consistent env) {acc : Account} {bs : Bytes}
    (henc : env.account.encode acc = .ok bs) : (m.apply (.updateAccount (some acc))).Consistent env := by
  refine ⟨fun a acc' ha => ?_, hc.names⟩
  simp only [Model.apply, Function.update_apply] at ha
  split_ifs at ha with hae
  · cases ha
    exact ⟨hae.symm, bs, henc⟩
  · exact hc.accounts a acc' ha

private theorem Model.Consistent.apply_removeAccount {m : Model} (hc : m.Consistent env) (address : Address) :
    (m.apply (.removeAccount address)).Consistent env := by
  refine ⟨fun a acc' ha => ?_, hc.names⟩
  simp only [Model.apply, Function.update_apply] at ha
  split_ifs at ha
  exact hc.accounts a acc' ha

private theorem Model.Consistent.apply_updateName {m : Model} (hc : m.Consistent env) {entry : Entry} {bs : Bytes}
    (henc : env.entry.encode entry = .ok bs) : (m.apply (.updateName entry)).Consistent env := by
  refine ⟨hc.accounts, fun n e he => ?_⟩
  simp only [Model.apply, Function.update_apply] at he
  split_ifs at he with hne
  · cases he
    exact ⟨hne.symm, bs, henc⟩
  · exact hc.names n e he

private theorem Model.Consistent.apply_removeName {m : Model} (hc : m.Consistent env) (name : Bytes) :
    (m.apply (.removeName name)).Consistent env := by
  refine ⟨hc.accounts, fun n e he => ?_⟩
  simp only [Model.apply, Function.update_apply] at he
  split_ifs at he
  exact hc.names n e he

end Apply

section Exec

variable {env} {m : Model} {s : State}

/-- Every call of the write view keeps the representation, applying to the model the calls that return `nil`. -/
theorem exec_represents (h : Represents env m s.tree.working) (hc : m.Consistent env) (w : Write) :
    Represents env (if (w.exec env s).2.isNone then m.apply w else m) (w.exec env s).1.tree.working ∧
      (if (w.exec env s).2.isNone then m.apply w else m).Consistent env := by
  cases w with
  | updateAccount account =>
    rcases account with _ | acc
    · exact ⟨h, hc⟩
    · cases henc : env.account.encode acc with
      | error e => simpa [Write.exec, State.updateAccount, henc] using And.intro h hc
      | ok bs =>
        simp only [Write.exec, State.updateAccount, henc, Option.isNone_none, if_true, RWTree.set_working]
        exact ⟨h.write env (.account acc.address) (some bs) (valueAt_updateAccount env m acc henc)
          (fun k => get_set _ _ _ k), hc.apply_updateAccount env henc⟩
  | removeAccount address =>
    simp only [Write.exec, State.removeAccount, Option.isNone_none, if_true, RWTree.delete_working]
    exact ⟨h.write env (.account address) none (valueAt_removeAccount env m address) (fun k => get_delete _ _ k),
      hc.apply_removeAccount env address⟩
  | setStorage address key value =>
    have hc' : (m.apply (.setStorage address key value)).Consistent env := ⟨hc.accounts, hc.names⟩
    by_cases hv : value = zero256
    · simp only [Write.exec, State.setStorage, hv, if_true, Option.isNone_none, RWTree.delete_working]
      refine ⟨h.write env (.storage address key) none (fun tk => ?_) (fun k => get_delete _ _ k), hv ▸ hc'⟩
      simp [valueAt_setStorage]
    · simp only [Write.exec, State.setStorage, hv, if_false, Option.isNone_none, if_true, RWTree.set_working]
      refine ⟨h.write env (.storage address key) (some value.val) (fun tk => ?_) (fun k => get_set _ _ _ k), hc'⟩
      simp [valueAt_setStorage, hv]
  | updateName entry =>
    cases henc : env.entry.encode entry with
    | error e => simpa [Write.exec, State.updateName, henc] using And.intro h hc
    | ok bs =>
      simp only [Write.exec, State.updateName, henc, Option.isNone_none, if_true, RWTree.set_working]
      exact ⟨h.write env (.name entry.name) (some bs) (valueAt_updateName env m entry henc)
        (fun k => get_set _ _ _ k), hc.apply_updateName env henc⟩
  | removeName name =>
    simp only [Write.exec, State.removeName, Option.isNone_none, if_true, RWTree.delete_working]
    exact ⟨h.write env (.name name) none (valueAt_removeName env m name) (fun k => get_delete _ _ k),
      hc.apply_removeName env name⟩
  | addBlock be =>
    have hw : (s.addBlock env be).1.tree = s.tree := by
      rcases addBlock_cases env s be with ⟨-, -, hs, -⟩ | ⟨-, hs, -⟩
      · rw [hs]
      · rw [hs.eq]
    simpa [Write.exec, Model.apply, hw] using And.intro h hc

/-- After an updater, the working copy represents the model with the calls that returned `nil` applied. -/
theorem run_represents (h : Represents env m s.tree.working) (hc : m.Consistent env) (u : Updater) :
    Represents env ((u.run env s).2.2.foldl Model.apply m) (u.run env s).1.tree.working ∧
      ((u.run env s).2.2.foldl Model.apply m).Consistent env := by
  refine Updater.run_induction env
    (fun s' ws => Represents env (ws.foldl Model.apply m) s'.tree.working ∧ (ws.foldl Model.apply m).Consistent env)
    (fun s' ws w ⟨h', hc'⟩ => ?_) u s [] ⟨h, hc⟩
  have := exec_represents h' hc' w
  by_cases hn : (w.exec env s').2.isNone <;> simpa [hn] using this

end Exec

/-! ### Which calls return `nil` -/

/-- The calls that return `nil` from `s`: an account that is not `nil` and encodes, an entry that encodes, every
removal and slot, and a block at an accepted height that encodes. -/
def Write.ReturnsNil (env : Collaborators) (s : State) : Write → Prop
  | .updateAccount account => ∃ acc bs, account = some acc ∧ env.account.encode acc = .ok bs
  | .removeAccount _ => True
  | .setStorage _ _ _ => True
  | .updateName entry => ∃ bs, env.entry.encode entry = .ok bs
  | .removeName _ => True
  | .addBlock be => ¬ (s.height > 0 ∧ be.height ≠ s.height + 1) ∧ ∃ bs, env.block.encode be = .ok bs

theorem exec_eq_none_iff (s : State) (w : Write) : (w.exec env s).2 = none ↔ w.ReturnsNil env s := by
  cases w with
  | updateAccount account =>
    rcases account with _ | acc
    · simp [Write.exec, State.updateAccount, Write.ReturnsNil]
    · cases h : env.account.encode acc <;> simp [Write.exec, State.updateAccount, Write.ReturnsNil, h]
  | removeAccount => simp [Write.exec, State.removeAccount, Write.ReturnsNil]
  | setStorage address key value =>
    simp only [Write.exec, State.setStorage, Write.ReturnsNil, iff_true]
    split_ifs <;> rfl
  | updateName entry => cases h : env.entry.encode entry <;> simp [Write.exec, State.updateName, Write.ReturnsNil, h]
  | removeName => simp [Write.exec, State.removeName, Write.ReturnsNil]
  | addBlock be =>
    simp only [Write.exec, Write.ReturnsNil]
    rcases addBlock_cases env s be with ⟨h1, h2, -, h4⟩ | ⟨hg, -, hiff⟩
    · exact iff_of_false (Option.isSome_iff_ne_none.1 h4) fun h => h.1 ⟨h1, h2⟩
    · exact hiff.trans (and_iff_right hg).symm

/-- The encoders of accounts and of name entries never fail. -/
def EncodesAll (env : Collaborators) : Prop :=
  (∀ acc, ∃ bs, env.account.encode acc = .ok bs) ∧ ∀ entry, ∃ bs, env.entry.encode entry = .ok bs

private theorem apply_of_not_returnsNil (henc : EncodesAll env) {s : State} {w : Write} (h : ¬ w.ReturnsNil env s)
    (m : Model) : m.apply w = m := by
  cases w with
  | updateAccount account =>
    rcases account with _ | acc
    · rfl
    · obtain ⟨bs, hbs⟩ := henc.1 acc
      exact absurd ⟨acc, bs, rfl, hbs⟩ h
  | removeAccount | setStorage | removeName => exact absurd trivial h
  | updateName entry => exact absurd (henc.2 entry) h
  | addBlock => rfl

private theorem foldl_apply_run_calls (henc : EncodesAll env) (u : Updater) (s : State) (m : Model) :
    (u.run env s).2.2.foldl Model.apply m = (u.calls env s).foldl Model.apply m := by
  induction u generalizing s m with
  | done => rfl
  | call w k ih =>
    simp only [Updater.run, Updater.calls, List.foldl_cons]
    by_cases hn : (w.exec env s).2 = none
    · simp only [hn, Option.isNone_none, if_true, List.foldl_cons, ih]
    · rw [if_neg (by simpa [Option.isNone_iff_eq_none] using hn),
        apply_of_not_returnsNil env henc (mt (exec_eq_none_iff env s w).2 hn), ih]

/-! ### Runs -/

/-- With encoders that never fail, the calls of a run that returned `nil` act on every model as all its calls. -/
theorem Run.foldl_apply_calls (henc : EncodesAll env) {s₀ s : State} {ws calls : List Write}
    {cs : List (Bytes × State)} (hrun : Run env s₀ s ws calls cs) (m : Model) :
    ws.foldl Model.apply m = calls.foldl Model.apply m := by
  induction hrun with
  | nil => rfl
  | ok u _ _ ih | error u _ _ ih => rw [List.foldl_append, List.foldl_append, ih, foldl_apply_run_calls env henc]

/-- Along a run from a represented state, the working copy represents `m` with the calls so far applied. -/
theorem run_represents_from {m : Model} {s₀ s : State} {ws calls : List Write} {cs : List (Bytes × State)}
    (h : Represents env m s₀.tree.working) (hc : m.Consistent env)
    (hread : ∃ m', Represents env m' s₀.tree.readTree ∧ m'.Consistent env) (hrun : Run env s₀ s ws calls cs) :
    (Represents env (ws.foldl Model.apply m) s.tree.working ∧ (ws.foldl Model.apply m).Consistent env) ∧
      ∃ m', Represents env m' s.tree.readTree ∧ m'.Consistent env := by
  induction hrun with
  | nil => exact ⟨⟨h, hc⟩, hread⟩
  | @ok s s' ws _ cs hash u _ hu ih =>
    have hw := run_represents ih.1.1 ih.1.2 u
    have hcommit := (update_ok env hu).2
    obtain ⟨hwk, hrt⟩ := commit_eq_tree env (saves_of_commit env _ hcommit) hcommit
    rw [List.foldl_append, hwk, hrt]
    exact ⟨hw, _, hw⟩
  | @error s s' ws _ cs e u _ hu ih =>
    have hw := run_represents ih.1.1 ih.1.2 u
    rw [List.foldl_append]
    have hkept : ∃ m', Represents env m' (u.run env s).1.tree.readTree ∧ m'.Consistent env := by
      rw [(run_frame env u s).readTree]
      exact ih.2
    rcases update_error env hu with ⟨-, rfl⟩ | ⟨-, hcommit⟩
    · exact ⟨hw, hkept⟩
    rcases saves_or_commit_eq env (u.run env s).1 with ⟨err, he⟩ | hs
    · obtain ⟨rfl, -⟩ := Prod.mk.inj (he.symm.trans hcommit)
      exact ⟨hw, hkept⟩
    · obtain ⟨hwk, hrt⟩ := commit_eq_tree env hs hcommit
      rw [hwk, hrt]
      exact ⟨hw, _, hw⟩

/-- Along a run from `NewState`, the working copy represents the model of the calls so far. -/
theorem run_represents_model {db : DB} {s : State} {ws calls : List Write} {cs : List (Bytes × State)}
    (hrun : Run env (newState db) s ws calls cs) :
    (Represents env (Model.ofWrites ws) s.tree.working ∧ (Model.ofWrites ws).Consistent env) ∧
      ∃ m, Represents env m s.tree.readTree ∧ m.Consistent env :=
  run_represents_from env (represents_empty env) (Model.consistent_empty env)
    ⟨_, represents_empty env, Model.consistent_empty env⟩ hrun

/-! ### Reading a represented tree -/

section Reads

variable {env} {m : Model} {s : State}

theorem getAccount_eq (hacc : env.account.RoundTrip) (h : Represents env m s.tree.readTree) (hc : m.Consistent env)
    (a : Address) : s.getAccount env a = .ok (m.accounts a) := by
  have hget : s.tree.get (accountKey a) = m.valueAt env (.account a) := h.get_bytes env (.account a)
  simp only [getAccount, hget, Model.valueAt]
  cases ha : m.accounts a with
  | none => rfl
  | some acc =>
    obtain ⟨-, bs, henc⟩ := hc.accounts a acc ha
    simp [henc, Except.toOption, hacc acc bs henc]

theorem getStorage_eq (h : Represents env m s.tree.readTree) (a : Address) (k : Word256) :
    s.getStorage a k = .ok (m.storage a k) := by
  have hget : s.tree.get (storageKey a k) = m.valueAt env (.storage a k) := h.get_bytes env (.storage a k)
  simp only [getStorage, hget, Model.valueAt]
  split_ifs with hz
  · rw [hz]
    rfl
  · exact leftPadWord256_word _

private theorem readTree_storage_eq_none (h : Represents env m s.tree.readTree) {a : Address} {k : Word256}
    (hz : m.storage a k = zero256) : s.tree.readTree.get (storageKey a k) = none := by
  rw [show storageKey a k = (TreeKey.storage a k).bytes from rfl, h.get_bytes]
  simp [Model.valueAt, hz]

theorem getName_eq (hent : env.entry.RoundTrip) (h : Represents env m s.tree.readTree) (hc : m.Consistent env)
    (n : Bytes) : s.getName env n = .ok (m.names n) := by
  have hget : s.tree.get (nameKey n) = m.valueAt env (.name n) := h.get_bytes env (.name n)
  simp only [getName, hget, Model.valueAt]
  cases hn : m.names n with
  | none => rfl
  | some e =>
    obtain ⟨-, bs, henc⟩ := hc.names n e hn
    simp [henc, Except.toOption, hent e bs henc]

/-! ### Iterating a represented tree -/

theorem Represents.mem_view {t : KVStore} (h : Represents env m t) {p : Prefix} {e : Bytes × Bytes}
    (he : e ∈ (view p t).entries) : ∃ tk, tk.bytes = p ++ e.1 ∧ m.valueAt env tk = some e.2 := by
  rw [KVStore.mem_view, ← get_eq_some_iff, h] at he
  obtain ⟨tk, hd, hv⟩ := Option.bind_eq_some.1 he
  exact ⟨tk, bytes_of_decodeTreeKey hd, hv⟩

private theorem Represents.mem_view_of {t : KVStore} (h : Represents env m t) {p : Prefix} {tk : TreeKey} {x v : Bytes}
    (hk : tk.bytes = p ++ x) (hv : m.valueAt env tk = some v) : (x, v) ∈ (view p t).entries := by
  rw [KVStore.mem_view, ← get_eq_some_iff, ← hk, h.get_bytes]
  exact hv

private theorem encode_toOption_eq_some {α : Type} {c : Codec α} {a : α} {bs : Bytes} :
    (c.encode a).toOption = some bs ↔ c.encode a = .ok bs := by
  cases c.encode a <;> simp [Except.toOption]

/-- `IterateAccounts` with a consumer that never stops visits the model's accounts in address order. -/
theorem iterateAccounts_eq (hacc : env.account.RoundTrip) (h : Represents env m s.tree.readTree)
    (hc : m.Consistent env) :
    ∃ L, s.iterateAccounts env (fun _ => false) = .ok (L, false, none) ∧
      (L.map fun acc => acc.address.val).Pairwise (· < ·) ∧ ∀ acc, acc ∈ L ↔ m.accounts acc.address = some acc := by
  have hent : ∀ e ∈ (view accountKeyFormat.tag s.tree.readTree).entries,
      ∃ acc, m.accounts acc.address = some acc ∧ acc.address.val = e.1 ∧ env.account.decode e.2 = .ok acc := by
    intro e he
    obtain ⟨tk, hk, hv⟩ := h.mem_view he
    obtain ⟨a, rfl, ha⟩ := TreeKey.bytes_eq_account hk
    obtain ⟨acc, hma, henc⟩ := Option.bind_eq_some.1 hv
    obtain ⟨rfl, -⟩ := hc.accounts a acc hma
    exact ⟨acc, hma, ha, hacc _ _ (encode_toOption_eq_some.1 henc)⟩
  have hR : ∀ (e : Bytes × Bytes) acc, readAccount env e.1 e.2 = .ok (.ok acc) ↔ env.account.decode e.2 = .ok acc :=
    fun e acc => by simp [readAccount]
  refine iterateLoop_view_exact _ _ _ _ _ (fun e he => ?_) (fun e he acc hr => ?_) (fun acc hma => ?_)
  · obtain ⟨acc, -, -, hd⟩ := hent e he
    exact ⟨acc, (hR e acc).2 hd⟩
  · obtain ⟨acc', hma, ha, hd⟩ := hent e he
    rw [(hR e acc).1 hr] at hd
    cases hd
    exact ⟨hma, ha⟩
  · obtain ⟨-, bs, henc⟩ := hc.accounts _ _ hma
    exact ⟨_, h.mem_view_of (show (TreeKey.account acc.address).bytes = accountKeyFormat.tag ++ acc.address.val by
      simp [TreeKey.bytes, accountKey]) (show m.valueAt env (.account acc.address) = some bs by
      simp [Model.valueAt, hma, henc, Except.toOption]), (hR _ acc).2 (hacc acc bs henc)⟩

private theorem readStorage_word (k w : Word256) : readStorage k.val w.val = .ok (.ok (k, w)) := by
  simp [readStorage, k.2, w.2, leftPadWord256_word]

/-- `IterateStorage` with a consumer that never stops visits an address's non-zero words in key order. -/
theorem iterateStorage_eq (h : Represents env m s.tree.readTree) (a : Address) :
    ∃ L, s.iterateStorage a (fun _ => false) = .ok (L, false, none) ∧
      (L.map fun kv => kv.1.val).Pairwise (· < ·) ∧ ∀ k v, (k, v) ∈ L ↔ v ≠ zero256 ∧ m.storage a k = v := by
  have hent : ∀ e ∈ (view (storageKeyFormat.fix [a.val]).tag s.tree.readTree).entries,
      ∃ k : Word256, m.storage a k ≠ zero256 ∧ e = (k.val, (m.storage a k).val) := by
    intro e he
    obtain ⟨tk, hk, hv⟩ := h.mem_view he
    obtain ⟨k, rfl, hkv⟩ := TreeKey.bytes_eq_storage hk
    simp only [Model.valueAt] at hv
    split_ifs at hv with hz
    exact ⟨k, hz, Prod.ext hkv.symm (Option.some.inj hv).symm⟩
  refine Exists.imp (fun L ⟨hL, hs, hmem⟩ => ⟨hL, hs, fun k v => hmem (k, v)⟩)
    (iterateLoop_view_exact _ _ readStorage (fun kv => kv.1.val) (fun kv => kv.2 ≠ zero256 ∧ m.storage a kv.1 = kv.2)
      (fun e he => ?_) (fun e he kv hr => ?_) (fun kv hkv => ?_))
  · obtain ⟨k, -, rfl⟩ := hent e he
    exact ⟨_, readStorage_word _ _⟩
  · obtain ⟨k, hz, rfl⟩ := hent e he
    rw [readStorage_word] at hr
    cases hr
    exact ⟨⟨hz, rfl⟩, rfl⟩
  · rcases kv with ⟨k, v⟩
    obtain ⟨hz, hkv⟩ := hkv
    exact ⟨_, h.mem_view_of (show (TreeKey.storage a k).bytes = (storageKeyFormat.fix [a.val]).tag ++ k.val by
      simp [TreeKey.bytes, storageKey, KeyFormat.fix]) (show m.valueAt env (.storage a k) = some v.val by
      simp [Model.valueAt, hkv, hz]), readStorage_word _ _⟩

/-- `IterateNames` with a consumer that never stops visits the model's entries in name order. -/
theorem iterateNames_eq (hent : env.entry.RoundTrip) (h : Represents env m s.tree.readTree) (hc : m.Consistent env) :
    ∃ L, s.iterateNames env (fun _ => false) = .ok (L, false, none) ∧
      (L.map fun e => e.name).Pairwise (· < ·) ∧ ∀ e, e ∈ L ↔ m.names e.name = some e := by
  have hview : ∀ x ∈ (view nameKeyFormat.tag s.tree.readTree).entries,
      ∃ e, m.names e.name = some e ∧ e.name = x.1 ∧ env.entry.decode x.2 = .ok e := by
    intro x hx
    obtain ⟨tk, hk, hv⟩ := h.mem_view hx
    obtain rfl := TreeKey.bytes_eq_name hk
    obtain ⟨e, hme, henc⟩ := Option.bind_eq_some.1 hv
    obtain ⟨hn, -⟩ := hc.names _ e hme
    exact ⟨e, hn ▸ hme, hn, hent _ _ (encode_toOption_eq_some.1 henc)⟩
  have hR : ∀ (x : Bytes × Bytes) e, readName env x.1 x.2 = .ok (.ok e) ↔ env.entry.decode x.2 = .ok e :=
    fun x e => by simp [readName]
  refine iterateLoop_view_exact _ _ _ _ _ (fun x hx => ?_) (fun x hx e hr => ?_) (fun e hme => ?_)
  · obtain ⟨e, -, -, hd⟩ := hview x hx
    exact ⟨e, (hR x e).2 hd⟩
  · obtain ⟨e', hme, hn, hd⟩ := hview x hx
    rw [(hR x e).1 hr] at hd
    cases hd
    exact ⟨hme, hn⟩
  · obtain ⟨-, bs, henc⟩ := hc.names _ _ hme
    exact ⟨_, h.mem_view_of (show (TreeKey.name e.name).bytes = nameKeyFormat.tag ++ e.name by
      simp [TreeKey.bytes, nameKey]) (show m.valueAt env (.name e.name) = some bs by
      simp [Model.valueAt, hme, henc, Except.toOption]), (hR _ e).2 (hent e bs henc)⟩

/-! ### The refinement -/

/-- The readers of `s` answer as `m`: the lookups give the model's values (an unset slot the zero word), and each
iteration with a consumer that never stops visits the model's entries once each, in key order. -/
structure ReadsAs (env : Collaborators) (s : State) (m : Model) : Prop where
  getAccount : ∀ a, s.getAccount env a = .ok (m.accounts a)
  getStorage : ∀ a k, s.getStorage a k = .ok (m.storage a k)
  storage_absent : ∀ a k, m.storage a k = zero256 → s.tree.readTree.get (storageKey a k) = none
  getName : ∀ n, s.getName env n = .ok (m.names n)
  iterateAccounts : ∃ L, s.iterateAccounts env (fun _ => false) = .ok (L, false, none) ∧
    (L.map fun acc => acc.address.val).Pairwise (· < ·) ∧ ∀ acc, acc ∈ L ↔ m.accounts acc.address = some acc
  iterateStorage : ∀ a, ∃ L, s.iterateStorage a (fun _ => false) = .ok (L, false, none) ∧
    (L.map fun kv => kv.1.val).Pairwise (· < ·) ∧ ∀ k v, (k, v) ∈ L ↔ v ≠ zero256 ∧ m.storage a k = v
  iterateNames : ∃ L, s.iterateNames env (fun _ => false) = .ok (L, false, none) ∧
    (L.map fun e => e.name).Pairwise (· < ·) ∧ ∀ e, e ∈ L ↔ m.names e.name = some e

theorem readsAs_of_represents (hacc : env.account.RoundTrip) (hent : env.entry.RoundTrip)
    (h : Represents env m s.tree.readTree) (hc : m.Consistent env) : ReadsAs env s m :=
  ⟨getAccount_eq hacc h hc, getStorage_eq h, fun _ _ => readTree_storage_eq_none h, getName_eq hent h hc,
    iterateAccounts_eq hacc h hc, iterateStorage_eq h, iterateNames_eq hent h hc⟩

end Reads

theorem readTree_of_update_ok {s s' : State} {u : Updater} {hash : Bytes} (hu : s.update env u = (s', .ok hash)) :
    s'.tree.readTree = s'.tree.working := by
  have hcommit := (update_ok env hu).2
  obtain ⟨hwk, hrt⟩ := commit_eq_tree env (saves_of_commit env _ hcommit) hcommit
  rw [hwk, hrt]

/-- The state store refines the store of maps: after each successful `Update` of a run from `NewState` the
readers answer as the model of the calls that returned `nil` (`Write.ReturnsNil`), with encoders that never fail
as that of every call; `MakeGenesisState` is such a run of one `Update` of the genesis calls. -/
def RefinesModel (env : Collaborators) : Prop :=
  (∀ {db : DB} {s s' : State} {ws calls : List Write} {cs : List (Bytes × State)} {u : Updater} {hash : Bytes},
    Run env (newState db) s ws calls cs → s.update env u = (s', .ok hash) →
      ReadsAs env s' (Model.ofWrites (ws ++ (u.run env s).2.2)) ∧
        (EncodesAll env → ReadsAs env s' (Model.ofWrites (calls ++ u.calls env s)))) ∧
  (∀ (s : State) (w : Write), (w.exec env s).2 = none ↔ w.ReturnsNil env s) ∧
  (∀ {db : DB} {g : GenesisDoc} {s : State}, makeGenesisState env db g = .ok s →
    Run env (newState db) s (genesisWrites env g) (genesisWrites env g) [(normaliseHash s.hash, s)] ∧
      ReadsAs env s (Model.ofWrites (genesisWrites env g)))

private theorem readsAs_of_update (hacc : env.account.RoundTrip) (hent : env.entry.RoundTrip) {db : DB}
    {s s' : State} {ws calls : List Write} {cs : List (Bytes × State)} {u : Updater} {hash : Bytes}
    (hrun : Run env (newState db) s ws calls cs) (hu : s.update env u = (s', .ok hash)) :
    ReadsAs env s' (Model.ofWrites (ws ++ (u.run env s).2.2)) ∧
      (EncodesAll env → ReadsAs env s' (Model.ofWrites (calls ++ u.calls env s))) := by
  obtain ⟨⟨hw, hc⟩, -⟩ := run_represents_model env (Run.ok u hrun hu)
  have h := readsAs_of_represents hacc hent (readTree_of_update_ok env hu ▸ hw) hc
  exact ⟨h, fun henc => by rwa [Model.ofWrites, (Run.ok u hrun hu).foldl_apply_calls env henc] at h⟩

theorem state_refines_model (hacc : env.account.RoundTrip) (hent : env.entry.RoundTrip) : RefinesModel env := by
  refine ⟨readsAs_of_update env hacc hent, exec_eq_none_iff env, fun hg => ⟨run_of_makeGenesisState env hg, ?_⟩⟩
  obtain ⟨hash, hu, hws, -⟩ := makeGenesisState_update env hg
  have := (readsAs_of_update env hacc hent (@Run.nil env _) hu).1
  rwa [List.nil_append, hws] at this

/-! ### Collaborators that satisfy the assumptions -/

/-- A prefix-free code of byte strings: every byte behind a `1`, then a `0`. -/
def serBytes : Bytes → Bytes
  | [] => [0]
  | b :: bs => 1 :: b :: serBytes bs

def serEntries : List (Bytes × Bytes) → Bytes
  | [] => [0]
  | e :: es => 1 :: (serBytes e.1 ++ serBytes e.2 ++ serEntries es)

/-- Collaborators whose codecs round-trip on part of their payloads, with the code of the contents as hash. -/
def sampleCollaborators : Collaborators where
  account :=
    ⟨fun acc => if acc.balance = 0 ∧ acc.permissions = ⟨⟨0, 0⟩, []⟩ then .ok acc.address.val
      else .error (.error "unsupported account"),
     fun bs => if h : bs.length = addressLength then .ok ⟨⟨bs, h⟩, 0, ⟨⟨0, 0⟩, []⟩⟩ else .error (.error "not an account")⟩
  entry :=
    ⟨fun e => if e.owner = globalPermissionsAddress ∧ e.data = "" ∧ e.expires = 0 then .ok e.name
      else .error (.error "unsupported entry"),
     fun bs => .ok ⟨bs, globalPermissionsAddress, "", 0⟩⟩
  block := ⟨fun be => .ok (uint64BE be.height), fun _ => .error (.error "not a block")⟩
  commitID :=
    ⟨fun c => if c.height = 0 ∧ c.version = 1 then .ok c.hash else .error (.error "unsupported commit"),
     fun bs => .ok ⟨bs, 0, 1⟩⟩
  treeHash := fun _ contents => serEntries contents.entries
  saveError := fun _ _ => none
  allPermFlags := 0

theorem sampleCollaborators_account_roundTrip : sampleCollaborators.account.RoundTrip := by
  rintro ⟨⟨a, ha⟩, balance, permissions⟩ bs h
  simp only [sampleCollaborators] at h ⊢
  split_ifs at h with hz
  obtain ⟨rfl, rfl⟩ := hz
  cases h
  simp [ha]

theorem sampleCollaborators_entry_roundTrip : sampleCollaborators.entry.RoundTrip := by
  rintro ⟨name, owner, data, expires⟩ bs h
  simp only [sampleCollaborators] at h ⊢
  split_ifs at h with hz
  obtain ⟨rfl, rfl, rfl⟩ := hz
  cases h
  rfl

theorem state_refines_model_sample :
    sampleCollaborators.account.RoundTrip ∧ sampleCollaborators.entry.RoundTrip ∧ RefinesModel sampleCollaborators :=
  ⟨sampleCollaborators_account_roundTrip, sampleCollaborators_entry_roundTrip,
    state_refines_model sampleCollaborators sampleCollaborators_account_roundTrip sampleCollaborators_entry_roundTrip⟩

end BurrowState
