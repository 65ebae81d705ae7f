import BurrowState.Execution.Blocks

/-!
# Copying a state

`Copy` sets every entry of the last saved version into a new state over the target database and commits, so the
copy has saved exactly that version (`copy_replicates_tree`) and the target database alone reloads it at its hash
(`copy_reloads_from_target`).  `Copy` fails only when `Save` or the encoding of the `CommitID` fails.
-/

namespace BurrowState

open State

variable (env : Collaborators)

/-- The iterating readers of the tree read its last saved version only. -/
theorem iterators_of_readTree {s s' : State} (h : s.tree.readTree = s'.tree.readTree) :
    (∀ c, s.iterateAccounts env c = s'.iterateAccounts env c) ∧
      (∀ a c, s.iterateStorage a c = s'.iterateStorage a c) ∧ ∀ c, s.iterateNames env c = s'.iterateNames env c := by
  have hit : s.tree.iterator = s'.tree.iterator := by
    unfold RWTree.iterator
    rw [h]
  simp only [iterateAccounts, iterateStorage, iterateNames, hit, h, implies_true, and_self]

private theorem commit_ok_of_encode (henc : ∀ c, ∃ bs, env.commitID.encode c = .ok bs) {s : State} (hs : s.Saves env) :
    ∃ hash, (s.commit env).2 = .ok hash := by
  obtain ⟨bs, hbs⟩ := henc ⟨normaliseHash (env.treeHash (s.tree.version + 1) s.tree.working), s.height,
    s.tree.version + 1⟩
  simp only [commit, RWTree.save, show env.saveError _ _ = none from hs, hbs]
  exact ⟨_, rfl⟩

private theorem foldl_set_tree (es : List (Bytes × Bytes)) (st : State) :
    es.foldl (fun st e => { st with tree := st.tree.set e.1 e.2 }) st =
      { st with tree := { st.tree with working := es.foldl (fun N e => N.set e.1 e.2) st.tree.working } } := by
  induction es generalizing st with
  | nil => rfl
  | cons e es ih => exact ih _

/-- `Copy` commits a new state whose working copy is the last saved version of the original. -/
theorem copy_eq (s : State) (db : DB) :
    s.copy env db =
      let stateCopy : State := { newState db with tree := { RWTree.newRWTree with working := s.tree.readTree } }
      match (stateCopy.commit env).2 with
      | .error err => .error err
      | .ok _ => .ok (stateCopy.commit env).1 := by
  have hvisit := RWTree.visitEntries_never_stops (fun (st : State) key value => { st with tree := st.tree.set key value })
    s.tree.readTree.entries (newState db)
  simp only [copy, RWTree.iterateRange, KVStore.inRange, Option.all_none, Bool.and_self, List.filter_true, if_true,
    hvisit, foldl_set_tree]
  rw [show (newState db).tree.working = KVStore.empty from rfl, KVStore.foldl_set_entries]
  rfl

/-- A successful `Copy` saved the original's last saved version as version 1 over the target database. -/
theorem copy_ok {s s' : State} {db : DB} (h : s.copy env db = .ok s') :
    env.saveError 1 s.tree.readTree = none ∧ s'.height = 0 ∧
      s'.tree = ⟨s.tree.readTree, s.tree.readTree, env.treeHash 1 s.tree.readTree, 1⟩ ∧ s'.cacheDB = s'.db ∧
      ∃ bs, env.commitID.encode ⟨normaliseHash (env.treeHash 1 s.tree.readTree), 0, 1⟩ = .ok bs ∧
        s'.db = ⟨db.kv.set (commitRef (normaliseHash (env.treeHash 1 s.tree.readTree))) bs,
          (1, env.treeHash 1 s.tree.readTree, s.tree.readTree) :: db.versions⟩ := by
  have hcopy := copy_eq env s db
  rcases hr : (({ newState db with tree := { RWTree.newRWTree with working := s.tree.readTree } } : State).commit
    env).2 with err | hash <;> simp only [hr] at hcopy <;> rw [hcopy] at h <;> cases h
  obtain ⟨hs, hhash, ⟨bs, henc, hkv⟩, hdb⟩ := BurrowState.commit_ok env _ hr
  subst hhash
  refine ⟨hs, commit_height env _, commit_tree env hs, hdb.symm, bs, henc, ?_⟩
  rw [hdb, show (commit env _).1.cacheDB = ⟨_, _⟩ from rfl, hkv, commit_versions env hs]
  rfl

/-- `Copy` replicates the whole tree: when `Save` succeeds and `CommitID`s encode, `Copy` into any database
returns a state at height 0 that saved exactly the original's last saved version over that database, and every
reader of the tree answers on it as on the original. -/
theorem copy_replicates_tree (henc : ∀ c, ∃ bs, env.commitID.encode c = .ok bs) (s : State) (db : DB)
    (hsave : env.saveError 1 s.tree.readTree = none) :
    ∃ s', s.copy env db = .ok s' ∧ s'.height = 0 ∧
      s'.tree = ⟨s.tree.readTree, s.tree.readTree, env.treeHash 1 s.tree.readTree, 1⟩ ∧ s'.cacheDB = s'.db ∧
      (∃ bs, env.commitID.encode ⟨normaliseHash (env.treeHash 1 s.tree.readTree), 0, 1⟩ = .ok bs ∧
        s'.db = ⟨db.kv.set (commitRef (normaliseHash (env.treeHash 1 s.tree.readTree))) bs,
          (1, env.treeHash 1 s.tree.readTree, s.tree.readTree) :: db.versions⟩) ∧
      (∀ a, s'.getAccount env a = s.getAccount env a) ∧ (∀ a k, s'.getStorage a k = s.getStorage a k) ∧
      (∀ n, s'.getName env n = s.getName env n) ∧ (∀ c, s'.iterateAccounts env c = s.iterateAccounts env c) ∧
      (∀ a c, s'.iterateStorage a c = s.iterateStorage a c) ∧
      (∀ c, s'.iterateNames env c = s.iterateNames env c) := by
  obtain ⟨hash, hok⟩ := commit_ok_of_encode env henc
    (s := { newState db with tree := { RWTree.newRWTree with working := s.tree.readTree } }) hsave
  have hcopy := copy_eq env s db
  simp only [hok] at hcopy
  obtain ⟨-, h₀, ht, hdb, hD⟩ := copy_ok env hcopy
  have hread : (commit env { newState db with tree := { RWTree.newRWTree with working := s.tree.readTree } }
      ).1.tree.readTree = s.tree.readTree := by rw [ht]
  obtain ⟨h₁, h₂, h₃⟩ := readers_of_readTree env hread
  obtain ⟨h₄, h₅, h₆⟩ := iterators_of_readTree env hread
  exact ⟨_, hcopy, h₀, ht, hdb, hD, h₁, h₂, h₃, h₄, h₅, h₆⟩

/-- A state after an `Update` that registers one name. -/
def stateNamed : State :=
  ((newState DB.empty).update blockCollaborators
    (Updater.ofWrites [.updateName ⟨[7], globalPermissionsAddress, "", 0⟩])).1

theorem copy_replicates_tree_stateNamed :
    (∀ c, ∃ bs, blockCollaborators.commitID.encode c = .ok bs) ∧
      blockCollaborators.saveError 1 stateNamed.tree.readTree = none ∧
      stateNamed.getName blockCollaborators [7] = .ok (some ⟨[7], globalPermissionsAddress, "", 0⟩) ∧
      ∃ s', stateNamed.copy blockCollaborators DB.empty = .ok s' ∧
        s'.getName blockCollaborators [7] = .ok (some ⟨[7], globalPermissionsAddress, "", 0⟩) := by
  have henc : ∀ c, ∃ bs, blockCollaborators.commitID.encode c = .ok bs := fun _ => ⟨_, rfl⟩
  have hname : stateNamed.getName blockCollaborators [7] = .ok (some ⟨[7], globalPermissionsAddress, "", 0⟩) := rfl
  obtain ⟨s', hs', -, -, -, -, -, -, hn, -⟩ := copy_replicates_tree blockCollaborators henc stateNamed DB.empty rfl
  exact ⟨henc, rfl, hname, s', hs', (hn [7]).trans hname⟩

/-! ### Reloading a copy -/

private theorem commitInv_copyState (s : State) (db : DB) :
    CommitInv env { newState db with tree := { RWTree.newRWTree with working := s.tree.readTree } } [] :=
  (commitInv_newState env db).of_frame env (writeFrame_of_working _ _)

/-- `Copy` persists the copy in the target database: with a `CommitID` codec that round-trips and a binding hash,
the copy's database is the target with its version and `CommitID` added, and `LoadState` of it at the copy's hash
answers `GetAccount`, `GetStorage` and `GetName` as the original. -/
theorem copy_reloads_from_target (hcid : env.commitID.RoundTrip) (hbind : HashBinding env) {s s' : State} {db : DB}
    (h : s.copy env db = .ok s') :
    (∃ bs, s'.db =
      ⟨db.kv.set (commitRef (normaliseHash s'.hash)) bs, (1, s'.hash, s.tree.readTree) :: db.versions⟩) ∧
    ∃ s'', loadState env s'.db (normaliseHash s'.hash) = .ok s'' ∧
      (∀ a, s''.getAccount env a = s.getAccount env a) ∧ (∀ a k, s''.getStorage a k = s.getStorage a k) ∧
      ∀ n, s''.getName env n = s.getName env n := by
  obtain ⟨-, -, ht, -, bs, -, hD⟩ := copy_ok env h
  have hhash : s'.hash = env.treeHash 1 s.tree.readTree := by rw [State.hash, RWTree.hash, ht]
  refine ⟨⟨bs, by rw [hD, hhash]⟩, ?_⟩
  have hcopy := copy_eq env s db
  rcases hc : (({ newState db with tree := { RWTree.newRWTree with working := s.tree.readTree } } : State).commit env)
    with ⟨s₁, _ | hash⟩ <;> simp only [hc] at hcopy <;> rw [hcopy] at h <;> cases h
  have hinv := (commitInv_copyState env s db).commit_ok (show _ = Except.ok hash by rw [hc])
  rw [hc] at hinv
  obtain ⟨-, s'', hload, -, hrt⟩ :=
    hinv.loadState_tree env hcid hbind (List.mem_append_right _ (List.mem_singleton_self _))
  exact ⟨s'', by rwa [commit_hash_normalises env _ hc], readers_of_readTree env (hrt.trans (by rw [ht]))⟩

theorem copy_reloads_from_target_stateNamed :
    sampleCollaborators.commitID.RoundTrip ∧ HashBinding sampleCollaborators ∧
      ∃ s', stateNamed.copy sampleCollaborators DB.empty = .ok s' ∧
        ∃ s'', loadState sampleCollaborators s'.db (normaliseHash s'.hash) = .ok s'' ∧
          s''.getName sampleCollaborators [7] = .ok (some ⟨[7], globalPermissionsAddress, "", 0⟩) := by
  obtain ⟨s', hs'⟩ : ∃ s', stateNamed.copy sampleCollaborators DB.empty = .ok s' := ⟨_, rfl⟩
  obtain ⟨-, s'', hload, -, -, hn⟩ := copy_reloads_from_target sampleCollaborators
    sampleCollaborators_commitID_roundTrip sampleCollaborators_hashBinding hs'
  exact ⟨sampleCollaborators_commitID_roundTrip, sampleCollaborators_hashBinding, s', hs', s'', hload, (hn [7]).trans rfl⟩

end BurrowState
