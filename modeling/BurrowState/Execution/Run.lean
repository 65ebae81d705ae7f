import BurrowState.Execution.Reads

/-!
# Runs of updates

What each step of the state store can do, said once: a call of the write view changes only the working copy, the
height and the keys of the tag `b` (`WriteFrame`, `exec_frame`); `commit` fails in `Save` and changes nothing, or
seals the working copy (`commit_tree`) and, when the `CommitID` encodes, flushes the cache (`commit_ok`).
`Run env s₀ s ws calls cs` is a run of `Update` calls, with the calls that returned `nil`, all calls, and commits.
-/

namespace BurrowState

open State

variable (env : Collaborators)

/-! ### Writes to the reference space -/

/-- `s'` is `s` after writes to keys of the tag `b` of the reference space. -/
structure BlockRefsWrite (s s' : State) : Prop where
  eq : s' = { s with cacheDB := { s.cacheDB with kv := s'.cacheDB.kv } }
  kv : ∀ k, ¬ (refsPrefix ++ blockRefKeyFormat.tag) <+: k → s'.cacheDB.kv.get k = s.cacheDB.kv.get k

theorem BlockRefsWrite.refl (s : State) : BlockRefsWrite s s := ⟨rfl, fun _ _ => rfl⟩

theorem BlockRefsWrite.trans {s s' s'' : State} (h₁ : BlockRefsWrite s s') (h₂ : BlockRefsWrite s' s'') :
    BlockRefsWrite s s'' :=
  ⟨by rw [h₂.eq, h₁.eq], fun k hk => (h₂.kv k hk).trans (h₁.kv k hk)⟩

@[simp] theorem refs_get_setRef (s : State) (key value k : Bytes) :
    (s.setRef key value).refs.get k = if k = key then some value else s.refs.get k := by
  simp [setRef, refs, PrefixKVStore.get, PrefixKVStore.set, Prefix.store]

private theorem setRef_blockRefsWrite (s : State) {key : Bytes} (hkey : blockRefKeyFormat.tag <+: key) (value : Bytes) :
    BlockRefsWrite s (s.setRef key value) := by
  refine ⟨rfl, fun k hk => ?_⟩
  have hne : k ≠ refsPrefix ++ key := fun he => hk (he ▸ (List.prefix_append_right_inj refsPrefix).2 hkey)
  simp [setRef, refs, PrefixKVStore.set, Prefix.store, hne]

theorem foldl_addTx_blockRefsWrite (s : State) (height : UInt64) (l : List (Nat × TxExecution)) :
    BlockRefsWrite s (l.foldl (fun s (i, txe) => s.addTx txe.txHash height i.toUInt64) s) := by
  induction l generalizing s with
  | nil => exact .refl s
  | cons e l ih =>
    exact (setRef_blockRefsWrite s (by simp [txKeyFormat, blockRefKeyFormat]) _).trans (ih _)

/-- `AddBlock` refuses the height and changes nothing, or moves to the height and writes only blocks and the
index; it then returns `nil` exactly when the block encodes. -/
theorem addBlock_cases (s : State) (be : BlockExecution) :
    (s.height > 0 ∧ be.height ≠ s.height + 1 ∧ (s.addBlock env be).1 = s ∧ (s.addBlock env be).2.isSome) ∨
    (¬ (s.height > 0 ∧ be.height ≠ s.height + 1) ∧
      BlockRefsWrite { s with height := be.height } (s.addBlock env be).1 ∧
      ((s.addBlock env be).2 = none ↔ ∃ bs, env.block.encode be = .ok bs)) := by
  by_cases hg : s.height > 0 ∧ be.height ≠ s.height + 1
  · exact .inl ⟨hg.1, hg.2, by simp [addBlock, hg], by simp [addBlock, hg]⟩
  · refine .inr ⟨hg, ?_⟩
    have hfold := foldl_addTx_blockRefsWrite { s with height := be.height } be.height be.txExecutions.enum
    cases henc : env.block.encode be with
    | error err => simpa [addBlock, hg, henc] using hfold
    | ok bs =>
      simp only [addBlock, hg, if_false, henc, isEmpty_Prop, true_iff]
      exact ⟨hfold.trans (setRef_blockRefsWrite _ (List.prefix_append _ _) _), ⟨bs, rfl⟩⟩

/-! ### The frame of a write -/

/-- What a call of the write view leaves alone: the database, the versions, the read side, and keys outside `b`. -/
structure WriteFrame (s s' : State) : Prop where
  db : s'.db = s.db
  versions : s'.cacheDB.versions = s.cacheDB.versions
  readTree : s'.tree.readTree = s.tree.readTree
  readHash : s'.tree.readHash = s.tree.readHash
  version : s'.tree.version = s.tree.version
  kv : ∀ k, ¬ (refsPrefix ++ blockRefKeyFormat.tag) <+: k → s'.cacheDB.kv.get k = s.cacheDB.kv.get k

theorem WriteFrame.refl (s : State) : WriteFrame s s := ⟨rfl, rfl, rfl, rfl, rfl, fun _ _ => rfl⟩

theorem WriteFrame.trans {s s' s'' : State} (h₁ : WriteFrame s s') (h₂ : WriteFrame s' s'') : WriteFrame s s'' :=
  ⟨h₂.db.trans h₁.db, h₂.versions.trans h₁.versions, h₂.readTree.trans h₁.readTree, h₂.readHash.trans h₁.readHash,
    h₂.version.trans h₁.version, fun k hk => (h₂.kv k hk).trans (h₁.kv k hk)⟩

theorem BlockRefsWrite.writeFrame {s s' : State} (h : BlockRefsWrite s s') : WriteFrame s s' := by
  obtain ⟨heq, hkv⟩ := h
  rw [heq]
  exact ⟨rfl, rfl, rfl, rfl, rfl, hkv⟩

theorem writeFrame_of_working (s : State) (working : KVStore) :
    WriteFrame s { s with tree := { s.tree with working := working } } :=
  ⟨rfl, rfl, rfl, rfl, rfl, fun _ _ => rfl⟩

theorem exec_frame (s : State) (w : Write) : WriteFrame s (w.exec env s).1 := by
  cases w with
  | updateAccount account =>
    rcases account with _ | account
    · exact .refl s
    · simp only [Write.exec, State.updateAccount]
      split
      · exact .refl s
      · exact writeFrame_of_working s _
  | removeAccount address => exact writeFrame_of_working s _
  | setStorage address key value =>
    simp only [Write.exec, State.setStorage]
    split <;> exact writeFrame_of_working s _
  | updateName entry =>
    simp only [Write.exec, State.updateName]
    split
    · exact .refl s
    · exact writeFrame_of_working s _
  | removeName name => exact writeFrame_of_working s _
  | addBlock be =>
    rcases addBlock_cases env s be with ⟨-, -, h, -⟩ | ⟨-, h, -⟩
    · show WriteFrame s (s.addBlock env be).1
      rw [h]
      exact .refl s
    · exact (show WriteFrame s { s with height := be.height } from ⟨rfl, rfl, rfl, rfl, rfl, fun _ _ => rfl⟩).trans
        h.writeFrame

/-! ### Updaters -/

/-- A property of the state and the calls that returned `nil`, kept by every call, holds after an updater. -/
theorem Updater.run_induction (P : State → List Write → Prop)
    (step : ∀ s ws w, P s ws → P (w.exec env s).1 (ws ++ if (w.exec env s).2.isNone then [w] else []))
    (u : Updater) (s : State) (ws : List Write) (h : P s ws) : P (u.run env s).1 (ws ++ (u.run env s).2.2) := by
  induction u generalizing s ws with
  | done err => simpa [Updater.run] using h
  | call w k ih =>
    have := ih (w.exec env s).2 _ _ (step s ws w h)
    simp only [Updater.run]
    split <;> simpa [*] using this

theorem run_frame (u : Updater) (s : State) : WriteFrame s (u.run env s).1 :=
  Updater.run_induction env (fun s' _ => WriteFrame s s') (fun _ _ w h => h.trans (exec_frame env _ w)) u s []
    (.refl s)

/-! ### Commit and update -/

section Commit

variable (s : State)

/-- A commit whose `Save` fails returns the error and changes nothing. -/
theorem commit_of_saveError {err : GoError} (h : env.saveError (s.tree.version + 1) s.tree.working = some err) :
    s.commit env = (s, .error err) := by
  simp only [commit, RWTree.save, h]

/-- A commit either fails in `Save`, changing nothing, or its `Save` seals the working copy. -/
theorem saves_or_commit_eq : (∃ err, s.commit env = (s, .error err)) ∨ s.Saves env := by
  rcases h : env.saveError (s.tree.version + 1) s.tree.working with _ | err
  · exact .inr h
  · exact .inl ⟨err, commit_of_saveError env s h⟩

/-- A failed commit leaves the backend and the database alone. -/
theorem commit_error {e : GoError} (h : (s.commit env).2 = .error e) :
    (s.commit env).1.cacheDB.kv = s.cacheDB.kv ∧ (s.commit env).1.db = s.db := by
  rcases saves_or_commit_eq env s with ⟨err, he⟩ | hs
  · rw [he]
    exact ⟨rfl, rfl⟩
  simp only [commit, RWTree.save, show env.saveError _ _ = none from hs] at h ⊢
  split at h
  · exact ⟨rfl, rfl⟩
  · cases h

section Saves

variable {s} (hs : s.Saves env)
include hs

theorem commit_tree : (s.commit env).1.tree =
    { s.tree with
      readTree := s.tree.working
      readHash := env.treeHash (s.tree.version + 1) s.tree.working
      version := s.tree.version + 1 } := by
  simp only [commit, RWTree.save, show env.saveError _ _ = none from hs]
  split <;> rfl

theorem commit_version : (s.commit env).1.tree.version = s.tree.version + 1 := by
  rw [commit_tree env hs]

theorem commit_readTree : (s.commit env).1.tree.readTree = s.tree.working := by
  rw [commit_tree env hs]

theorem commit_readHash : (s.commit env).1.tree.readHash = env.treeHash (s.tree.version + 1) s.tree.working := by
  rw [commit_tree env hs]

theorem commit_eq_tree {s' : State} {r : Except GoError Bytes} (h : s.commit env = (s', r)) :
    s'.tree.working = s.tree.working ∧ s'.tree.readTree = s.tree.working := by
  have ht := commit_tree env hs
  rw [h] at ht
  rw [ht]
  exact ⟨rfl, rfl⟩

theorem commit_versions : (s.commit env).1.cacheDB.versions =
    (s.tree.version + 1, env.treeHash (s.tree.version + 1) s.tree.working, s.tree.working) :: s.cacheDB.versions := by
  simp only [commit, RWTree.save, show env.saveError _ _ = none from hs]
  split <;> rfl

end Saves

theorem commit_working : (s.commit env).1.tree.working = s.tree.working := by
  rcases saves_or_commit_eq env s with ⟨err, he⟩ | hs
  · rw [he]
  · rw [commit_tree env hs]

theorem commit_height : (s.commit env).1.height = s.height := by
  rcases saves_or_commit_eq env s with ⟨err, he⟩ | hs
  · rw [he]
  simp only [commit, RWTree.save, show env.saveError _ _ = none from hs]
  split <;> rfl

/-- A successful commit saved the tree, returns the normalised hash, stores the `CommitID` under it and flushes. -/
theorem commit_ok {hash : Bytes} (h : (s.commit env).2 = .ok hash) :
    s.Saves env ∧ hash = normaliseHash (env.treeHash (s.tree.version + 1) s.tree.working) ∧
    (∃ bs, env.commitID.encode ⟨hash, s.height, s.tree.version + 1⟩ = .ok bs ∧
      (s.commit env).1.cacheDB.kv = s.refs.set (commitKeyFormat.key [hash]) bs) ∧
    (s.commit env).1.db = (s.commit env).1.cacheDB := by
  rcases saves_or_commit_eq env s with ⟨err, he⟩ | hs
  · rw [he] at h
    cases h
  simp only [commit, RWTree.save, show env.saveError _ _ = none from hs] at h ⊢
  split at h
  · cases h
  · cases h
    exact ⟨hs, rfl, ⟨_, ‹_›, rfl⟩, rfl⟩

theorem saves_of_commit {s' : State} {hash : Bytes} (h : s.commit env = (s', .ok hash)) : s.Saves env :=
  (commit_ok env s (by rw [h])).1

/-- After a commit that returns `hash`, `hash` is the normalisation of `Hash()`. -/
theorem commit_hash_normalises {s' : State} {hash : Bytes} (h : s.commit env = (s', .ok hash)) :
    normaliseHash s'.hash = hash := by
  have hs : s' = (s.commit env).1 := by rw [h]
  rw [(commit_ok env s (show (s.commit env).2 = .ok hash by rw [h])).2.1, hs, State.hash, RWTree.hash,
    commit_readHash env (saves_of_commit env s h)]

end Commit

theorem update_ok {s s' : State} {u : Updater} {hash : Bytes} (h : s.update env u = (s', .ok hash)) :
    (u.run env s).2.1 = none ∧ (u.run env s).1.commit env = (s', .ok hash) := by
  rcases hr : u.run env s with ⟨s₁, _ | e, ws⟩
  · simpa [update, hr] using h
  · simp [update, hr] at h

theorem update_error {s s' : State} {u : Updater} {e : GoError} (h : s.update env u = (s', .error e)) :
    ((u.run env s).2.1 = some e ∧ s' = (u.run env s).1) ∨
      ((u.run env s).2.1 = none ∧ (u.run env s).1.commit env = (s', .error e)) := by
  rcases hr : u.run env s with ⟨s₁, _ | e', ws⟩
  · exact .inr (by simpa [update, hr] using h)
  · simp only [update, hr, Prod.mk.injEq, Except.error.injEq] at h
    exact .inl ⟨by rw [h.2], h.1.symm⟩

/-! ### Genesis -/

/-- The updater that makes the calls `ws` in order and returns the first error. -/
def Updater.ofWrites : List Write → Updater
  | [] => .done none
  | w :: ws => .call w fun err => match err with
    | none => Updater.ofWrites ws
    | some err => .done (some err)

/-- The calls of `MakeGenesisState`: the genesis accounts, then the account of the global permissions. -/
def genesisWrites (genesisDoc : GenesisDoc) : List Write :=
  genesisDoc.accounts.map (fun genAcc => .updateAccount (some genAcc.account)) ++
    [.updateAccount (some (permsAccount env genesisDoc))]

private theorem orError_eq_ok {r : State × Option GoError} {s : State} : orError r = .ok s ↔ r.2 = none ∧ r.1 = s := by
  rcases r with ⟨s', _ | e⟩ <;> simp [orError]

private theorem run_ofWrites {ws : List Write} {s s' : State}
    (h : ws.foldlM (fun s w => orError (w.exec env s)) s = .ok s') :
    (Updater.ofWrites ws).run env s = (s', none, ws) ∧ (Updater.ofWrites ws).calls env s = ws := by
  induction ws generalizing s with
  | nil => cases h; exact ⟨rfl, rfl⟩
  | cons w ws ih =>
    obtain ⟨s₁, h₁, h⟩ := except_bind_eq_ok.1 h
    obtain ⟨hn, rfl⟩ := orError_eq_ok.1 h₁
    obtain ⟨hr, hc⟩ := ih h
    simp [Updater.run, Updater.calls, Updater.ofWrites, hn, hr, hc]

/-- `MakeGenesisState` is an `Update` of a new state with the genesis calls, all of which return `nil`. -/
theorem makeGenesisState_update {db : DB} {g : GenesisDoc} {s : State} (h : makeGenesisState env db g = .ok s) :
    ∃ hash, (newState db).update env (Updater.ofWrites (genesisWrites env g)) = (s, .ok hash) ∧
      ((Updater.ofWrites (genesisWrites env g)).run env (newState db)).2.2 = genesisWrites env g ∧
      (Updater.ofWrites (genesisWrites env g)).calls env (newState db) = genesisWrites env g := by
  simp only [makeGenesisState] at h
  split_ifs at h with hv
  · cases h
  obtain ⟨-, -, h⟩ := except_bind_eq_ok.1 h
  obtain ⟨s₁, h₁, h⟩ := except_bind_eq_ok.1 h
  obtain ⟨s₂, h₂, h⟩ := except_bind_eq_ok.1 h
  have hfold : (genesisWrites env g).foldlM (fun s w => orError (w.exec env s)) (newState db) = .ok s₂ := by
    rw [genesisWrites, List.foldlM_append, List.foldlM_map]
    simp [h₁, h₂, Write.exec]
  obtain ⟨hrun, hcalls⟩ := run_ofWrites env hfold
  rcases hc : s₂.commit env with ⟨s₃, _ | hash⟩
  · simp [hc] at h
  · simp only [hc, except_ok_bind, except_pure, Except.ok.injEq] at h
    subst h
    exact ⟨hash, by simp [update, hrun, hc], by rw [hrun], hcalls⟩

/-! ### Runs -/

/-- `Run env s₀ s ws calls cs`: `Update` calls take `s₀` to `s`; `ws` are the calls of the write view that
returned `nil`, `calls` all calls made, and `cs` each successful `Update`'s hash with the state after it. -/
inductive Run (s₀ : State) : State → List Write → List Write → List (Bytes × State) → Prop
  | nil : Run s₀ s₀ [] [] []
  | ok {s s' : State} {ws calls : List Write} {cs : List (Bytes × State)} {hash : Bytes} (u : Updater) :
      Run s₀ s ws calls cs → s.update env u = (s', .ok hash) →
        Run s₀ s' (ws ++ (u.run env s).2.2) (calls ++ u.calls env s) (cs ++ [(hash, s')])
  | error {s s' : State} {ws calls : List Write} {cs : List (Bytes × State)} {e : GoError} (u : Updater) :
      Run s₀ s ws calls cs → s.update env u = (s', .error e) →
        Run s₀ s' (ws ++ (u.run env s).2.2) (calls ++ u.calls env s) cs

theorem Run.append {s₀ s₁ s : State} {ws₁ ws calls₁ calls : List Write} {cs₁ cs : List (Bytes × State)}
    (h₁ : Run env s₀ s₁ ws₁ calls₁ cs₁) (h : Run env s₁ s ws calls cs) :
    Run env s₀ s (ws₁ ++ ws) (calls₁ ++ calls) (cs₁ ++ cs) := by
  induction h with
  | nil => simpa using h₁
  | ok u _ hu ih => simpa only [List.append_assoc] using Run.ok u ih hu
  | error u _ hu ih => simpa only [List.append_assoc] using Run.error u ih hu

/-- `MakeGenesisState` is a run of one `Update` of the genesis calls from `NewState`, its hash normalising `Hash()`. -/
theorem run_of_makeGenesisState {db : DB} {g : GenesisDoc} {s : State} (h : makeGenesisState env db g = .ok s) :
    Run env (newState db) s (genesisWrites env g) (genesisWrites env g) [(normaliseHash s.hash, s)] := by
  obtain ⟨hash, hu, hws, hcalls⟩ := makeGenesisState_update env h
  have := Run.ok (Updater.ofWrites (genesisWrites env g)) (@Run.nil env (newState db)) hu
  rwa [hws, hcalls, ← commit_hash_normalises env _ (update_ok env hu).2] at this

end BurrowState
