import BurrowState.Execution.Refinement

/-!
# Commits and reloading

The cache and the database keep every commit of a run, its sealed version and its `CommitID` (`CommitInv`,
`run_commitInv`), so with a binding hash `LoadState` of any committed hash gives the contents of that commit
(`committed_hash_loadable`).  `Hash()` is the returned hash exactly when the sealed version's hash is not empty
(`hash_agrees_iff_nonempty`).
-/

namespace BurrowState

open State KVStore

variable (env : Collaborators)

/-- Equal normalised hashes of sealed versions mean equal contents, as the spec assumes. -/
def HashBinding : Prop :=
  ∀ v c v' c', normaliseHash (env.treeHash v c) = normaliseHash (env.treeHash v' c') → c = c'

/-- The key of the `CommitID` of a hash in the backend. -/
def commitRef (hash : Bytes) : Bytes := refsPrefix ++ commitKeyFormat.key [hash]

/-- What a database holds for the commits `cs`: each sealed version, and a `CommitID` under each hash. -/
structure CommitsStored (D : DB) (cs : List (Bytes × State)) : Prop where
  version : ∀ c ∈ cs, D.lookupVersion c.2.tree.version = some (c.2.tree.readHash, c.2.tree.readTree)
  commitID : ∀ c ∈ cs, ∃ c' ∈ cs, c'.1 = c.1 ∧ ∃ bs, D.kv.get (commitRef c.1) = some bs ∧
    env.commitID.encode ⟨c.1, c'.2.height, c'.2.tree.version⟩ = .ok bs

/-- The invariant of the commits of a run: the database and the cache hold them, with their hashes and versions. -/
structure CommitInv (s : State) (cs : List (Bytes × State)) : Prop where
  db : CommitsStored env s.db cs
  cache : CommitsStored env s.cacheDB cs
  hash : ∀ c ∈ cs, c.2.tree.readHash = env.treeHash c.2.tree.version c.2.tree.readTree ∧
    c.1 = normaliseHash c.2.tree.readHash
  version : ∀ c ∈ cs, 0 < c.2.tree.version ∧ c.2.tree.version ≤ s.tree.version
  nonneg : 0 ≤ s.tree.version

private theorem commitRef_not_blockRef (hash : Bytes) : ¬ (refsPrefix ++ blockRefKeyFormat.tag) <+: commitRef hash := by
  simp [commitRef, refsPrefix, blockRefKeyFormat, commitKeyFormat]

private theorem commitRef_inj {h h' : Bytes} : commitRef h = commitRef h' ↔ h = h' := by
  simp [commitRef]

private theorem CommitsStored.mono {D D' : DB} {cs : List (Bytes × State)} (h : CommitsStored env D cs)
    (hv : ∀ c ∈ cs, D'.lookupVersion c.2.tree.version = D.lookupVersion c.2.tree.version)
    (hkv : ∀ c ∈ cs, D'.kv.get (commitRef c.1) = D.kv.get (commitRef c.1)) : CommitsStored env D' cs :=
  ⟨fun c hc => (hv c hc).trans (h.version c hc), fun c hc => hkv c hc ▸ h.commitID c hc⟩

theorem CommitInv.of_frame {s s' : State} {cs : List (Bytes × State)} (h : CommitInv env s cs)
    (hf : WriteFrame s s') : CommitInv env s' cs :=
  ⟨hf.db ▸ h.db, h.cache.mono env (fun _ _ => by rw [DB.lookupVersion, hf.versions]; rfl)
      (fun _ _ => hf.kv _ (commitRef_not_blockRef _)),
    h.hash, fun c hc => hf.version ▸ h.version c hc, hf.version ▸ h.nonneg⟩

section Commit

variable {env} {s : State} {cs : List (Bytes × State)}

section Saves

variable (hs : s.Saves env)
include hs

private theorem commit_lookupVersion (v : Int) : (s.commit env).1.cacheDB.lookupVersion v =
    if s.tree.version + 1 = v then some (env.treeHash (s.tree.version + 1) s.tree.working, s.tree.working)
    else s.cacheDB.lookupVersion v := by
  simp only [DB.lookupVersion, commit_versions env hs, List.find?_cons]
  split_ifs <;> simp_all

private theorem CommitInv.lookup_commit (h : CommitInv env s cs) {c : Bytes × State} (hc : c ∈ cs) :
    (s.commit env).1.cacheDB.lookupVersion c.2.tree.version = s.cacheDB.lookupVersion c.2.tree.version := by
  have := (h.version c hc).2
  rw [commit_lookupVersion hs, if_neg (by omega)]

private theorem CommitInv.version_le_commit (h : CommitInv env s cs) {c : Bytes × State} (hc : c ∈ cs) :
    0 < c.2.tree.version ∧ c.2.tree.version ≤ (s.commit env).1.tree.version := by
  have := h.version c hc
  rw [commit_version env hs]
  omega

private theorem CommitInv.nonneg_commit (h : CommitInv env s cs) : 0 ≤ (s.commit env).1.tree.version := by
  have := h.nonneg
  rw [commit_version env hs]
  omega

private theorem CommitInv.cache_commit (h : CommitInv env s cs) {hash bs : Bytes}
    (henc : env.commitID.encode ⟨hash, s.height, s.tree.version + 1⟩ = .ok bs)
    (hkv : (s.commit env).1.cacheDB.kv = s.refs.set (commitKeyFormat.key [hash]) bs) :
    CommitsStored env (s.commit env).1.cacheDB (cs ++ [(hash, (s.commit env).1)]) := by
  have hget : ∀ h', (s.commit env).1.cacheDB.kv.get (commitRef h') =
      if h' = hash then some bs else s.cacheDB.kv.get (commitRef h') := fun h' => by
    rw [hkv]
    simp only [refs, PrefixKVStore.set, Prefix.store, Prefix.key_eq, get_set]
    exact if_congr commitRef_inj rfl rfl
  refine ⟨fun c hc => ?_, fun c hc => ?_⟩
  · rcases List.mem_append.1 hc with hc | hc
    · rw [h.lookup_commit hs hc]
      exact h.cache.version c hc
    · rw [List.mem_singleton.1 hc]
      simp [commit_lookupVersion hs, commit_version env hs, commit_readHash env hs, commit_readTree env hs]
  · by_cases he : c.1 = hash
    · refine ⟨_, List.mem_append_right _ (List.mem_singleton_self _), he.symm, bs, by rw [hget, if_pos he], ?_⟩
      rw [he, commit_height, commit_version env hs]
      exact henc
    · have hc := (List.mem_append.1 hc).resolve_right fun hc => he (by rw [List.mem_singleton.1 hc])
      obtain ⟨c', hc', h1, bs', hg, he'⟩ := h.cache.commitID c hc
      exact ⟨c', List.mem_append_left _ hc', h1, bs', by rw [hget, if_neg he]; exact hg, he'⟩

end Saves

/-- A successful commit keeps the invariant, with its hash and the state after it added. -/
theorem CommitInv.commit_ok (h : CommitInv env s cs) {hash : Bytes} (hok : (s.commit env).2 = .ok hash) :
    CommitInv env (s.commit env).1 (cs ++ [(hash, (s.commit env).1)]) := by
  obtain ⟨hs, hhash, ⟨bs, henc, hkv⟩, hdb⟩ := BurrowState.commit_ok env s hok
  have hcache := h.cache_commit hs henc hkv
  refine ⟨hdb ▸ hcache, hcache, fun c hc => ?_, fun c hc => ?_, h.nonneg_commit hs⟩
  · rcases List.mem_append.1 hc with hc | hc
    · exact h.hash c hc
    · rw [List.mem_singleton.1 hc]
      exact ⟨by simp [commit_tree env hs], by simpa [commit_tree env hs] using hhash⟩
  · rcases List.mem_append.1 hc with hc | hc
    · exact h.version_le_commit hs hc
    · have := h.nonneg
      rw [List.mem_singleton.1 hc, commit_version env hs]
      exact ⟨by omega, le_rfl⟩

/-- A failed commit keeps the invariant, whether `Save` or the `CommitID` failed. -/
theorem CommitInv.commit_error (h : CommitInv env s cs) {e : GoError} (herr : (s.commit env).2 = .error e) :
    CommitInv env (s.commit env).1 cs := by
  rcases saves_or_commit_eq env s with ⟨err, he⟩ | hs
  · rwa [he]
  obtain ⟨hkv, hdb⟩ := BurrowState.commit_error env s herr
  exact ⟨hdb ▸ h.db, h.cache.mono env (fun c hc => h.lookup_commit hs hc) (fun c _ => by rw [hkv]), h.hash,
    fun c hc => h.version_le_commit hs hc, h.nonneg_commit hs⟩

end Commit

theorem commitInv_newState (db : DB) : CommitInv env (newState db) [] :=
  ⟨⟨nofun, nofun⟩, ⟨nofun, nofun⟩, nofun, nofun, le_refl _⟩

/-- Along a run from `NewState`, the database holds every commit of the run. -/
theorem run_commitInv {db : DB} {s : State} {ws calls : List Write} {cs : List (Bytes × State)}
    (hrun : Run env (newState db) s ws calls cs) : CommitInv env s cs := by
  induction hrun with
  | nil => exact commitInv_newState env db
  | @ok s s' ws _ cs hash u _ hu ih =>
    obtain ⟨-, hcommit⟩ := update_ok env hu
    have h := (ih.of_frame env (run_frame env u s)).commit_ok
      (show ((u.run env s).1.commit env).2 = .ok hash by rw [hcommit])
    rwa [hcommit] at h
  | @error s s' ws _ cs e u _ hu ih =>
    rcases update_error env hu with ⟨-, rfl⟩ | ⟨-, hcommit⟩
    · exact ih.of_frame env (run_frame env u s)
    · have h := (ih.of_frame env (run_frame env u s)).commit_error (by rw [hcommit])
      rwa [hcommit] at h

/-- A failed `Update` leaves the database alone. -/
theorem update_error_db {s s' : State} {u : Updater} {e : GoError} (h : s.update env u = (s', .error e)) :
    s'.db = s.db := by
  rcases update_error env h with ⟨-, rfl⟩ | ⟨-, hcommit⟩
  · exact (run_frame env u s).db
  · have hdb := (BurrowState.commit_error env (u.run env s).1 (by rw [hcommit])).2
    rw [hcommit] at hdb
    exact hdb.trans (run_frame env u s).db

/-- Along every run of `Update` calls, the database is the one the last successful `Update` flushed, or the
first one when no `Update` succeeded. -/
theorem run_db_eq_last_commit {s₀ s : State} {ws calls : List Write} {cs : List (Bytes × State)}
    (hrun : Run env s₀ s ws calls cs) : s.db = ((cs.getLast?).map fun c => c.2.db).getD s₀.db := by
  induction hrun with
  | nil => rfl
  | ok => rw [List.getLast?_concat]; rfl
  | error _ _ hu ih => rw [update_error_db env hu, ih]

theorem run_db_eq_last_commit_sample :
    let u₁ := Updater.ofWrites [.removeName [1]]
    let u₂ := Updater.ofWrites [.removeName [2]]
    let r₁ := (newState DB.empty).update sampleCollaborators u₁
    let r₂ := r₁.1.update sampleCollaborators u₂
    r₁.2 = .ok [0] ∧ r₂.2 = .error (.error "could not encode CommitID %v: %v") ∧ r₂.1.db = r₁.1.db := by
  intro u₁ u₂ r₁ r₂
  have h₁ : (newState DB.empty).update sampleCollaborators u₁ = (r₁.1, .ok [0]) := rfl
  have h₂ : r₁.1.update sampleCollaborators u₂ = (r₂.1, .error (.error "could not encode CommitID %v: %v")) := rfl
  have hrun := Run.error u₂ (Run.ok u₁ (@Run.nil sampleCollaborators _) h₁) h₂
  exact ⟨congrArg Prod.snd h₁, congrArg Prod.snd h₂, run_db_eq_last_commit sampleCollaborators hrun⟩

/-! ### Reloading a commit -/

/-- The readers of the tree read its last saved version only. -/
theorem readers_of_readTree {s s' : State} (h : s.tree.readTree = s'.tree.readTree) :
    (∀ a, s.getAccount env a = s'.getAccount env a) ∧ (∀ a k, s.getStorage a k = s'.getStorage a k) ∧
      ∀ n, s.getName env n = s'.getName env n := by
  simp only [getAccount, getStorage, getName, RWTree.get, h, implies_true, and_self]

private theorem loadState_eq_ok {db : DB} {hash bs readHash : Bytes} {cid : CommitID} {contents : KVStore}
    (hget : db.kv.get (commitRef hash) = some bs) (hdec : env.commitID.decode bs = .ok cid)
    (hv : 0 < cid.version) (hlook : db.lookupVersion cid.version = some (readHash, contents)) :
    loadState env db hash = .ok { newState db with tree := ⟨contents, contents, readHash, cid.version⟩ } := by
  have hget' : (newState db).refs.get (commitKeyFormat.key [hash]) = some bs := hget
  simp only [loadState, hget']
  simp [hdec, RWTree.load, hlook, not_le.2 hv, newState]

/-- `LoadState` of the hash of a commit `(hash, s)` succeeds, and the loaded state reads as `s`. -/
structure LoadsAs (D : DB) (c : Bytes × State) : Prop where
  commitID : ∃ cid, env.commitID.decode ((D.kv.get (commitRef c.1)).getD []) = .ok cid ∧ 0 < cid.version
  load : ∃ s', loadState env D c.1 = .ok s' ∧ (∀ a, s'.getAccount env a = c.2.getAccount env a) ∧
    (∀ a k, s'.getStorage a k = c.2.getStorage a k) ∧ ∀ n, s'.getName env n = c.2.getName env n

/-- Under the invariant every commit loads, its sealed version as the working copy and last saved version. -/
theorem CommitInv.loadState_tree (hcid : env.commitID.RoundTrip) (hbind : HashBinding env) {s : State}
    {cs : List (Bytes × State)} (h : CommitInv env s cs) {c : Bytes × State} (hc : c ∈ cs) :
    (∃ cid, env.commitID.decode ((s.db.kv.get (commitRef c.1)).getD []) = .ok cid ∧ 0 < cid.version) ∧
      ∃ s₀, loadState env s.db c.1 = .ok s₀ ∧ s₀.tree.working = c.2.tree.readTree ∧
        s₀.tree.readTree = c.2.tree.readTree := by
  obtain ⟨c', hc', h1, bs, hget, henc⟩ := h.db.commitID c hc
  have hdec := hcid _ _ henc
  have hv := (h.version c' hc').1
  have hread : c'.2.tree.readTree = c.2.tree.readTree := by
    obtain ⟨hh, hn⟩ := h.hash c hc
    obtain ⟨hh', hn'⟩ := h.hash c' hc'
    refine hbind c'.2.tree.version _ c.2.tree.version _ ?_
    calc normaliseHash (env.treeHash c'.2.tree.version c'.2.tree.readTree) = c'.1 := by rw [← hh', hn']
      _ = c.1 := h1
      _ = normaliseHash (env.treeHash c.2.tree.version c.2.tree.readTree) := by rw [hn, hh]
  exact ⟨⟨_, by rw [hget]; exact hdec, hv⟩, _, loadState_eq_ok env hget hdec hv (h.db.version c' hc'), hread, hread⟩

theorem CommitInv.loadsAs (hcid : env.commitID.RoundTrip) (hbind : HashBinding env) {s : State}
    {cs : List (Bytes × State)} (h : CommitInv env s cs) {c : Bytes × State} (hc : c ∈ cs) : LoadsAs env s.db c := by
  obtain ⟨hcommitID, s₀, hload, -, hread⟩ := h.loadState_tree env hcid hbind hc
  exact ⟨hcommitID, s₀, hload, readers_of_readTree env hread⟩

/-- Hash addressability: every hash a successful `Update` or `MakeGenesisState` returned, at any later point of
the run, loads from the database into a state that reads as right after that commit. -/
def CommitsLoadable (env : Collaborators) : Prop :=
  (∀ {db : DB} {s : State} {ws calls : List Write} {cs : List (Bytes × State)},
    Run env (newState db) s ws calls cs → ∀ c ∈ cs, LoadsAs env s.db c) ∧
  (∀ {db : DB} {g : GenesisDoc} {s₀ s : State} {ws calls : List Write} {cs : List (Bytes × State)},
    makeGenesisState env db g = .ok s₀ → Run env s₀ s ws calls cs →
      LoadsAs env s.db (normaliseHash s₀.hash, s₀) ∧ ∀ c ∈ cs, LoadsAs env s.db c)

theorem committed_hash_loadable (hcid : env.commitID.RoundTrip) (hbind : HashBinding env) :
    CommitsLoadable env := by
  refine ⟨fun hrun c hc => (run_commitInv env hrun).loadsAs env hcid hbind hc, fun hg hrun => ?_⟩
  have h := run_commitInv env ((run_of_makeGenesisState env hg).append env hrun)
  exact ⟨h.loadsAs env hcid hbind (List.mem_append_left _ (List.mem_singleton_self _)),
    fun c hc => h.loadsAs env hcid hbind (List.mem_append_right _ hc)⟩

/-! ### Collaborators with a binding hash -/

private theorem serBytes_append_inj {a b r r' : Bytes} (h : serBytes a ++ r = serBytes b ++ r') : a = b ∧ r = r' := by
  induction a generalizing b with
  | nil => cases b <;> simp_all [serBytes]
  | cons x a ih =>
    cases b with
    | nil => simp [serBytes] at h
    | cons y b =>
      simp only [serBytes, List.cons_append, List.cons.injEq] at h
      obtain ⟨-, rfl, h⟩ := h
      obtain ⟨rfl, rfl⟩ := ih h
      exact ⟨rfl, rfl⟩

private theorem serEntries_inj {es es' : List (Bytes × Bytes)} (h : serEntries es = serEntries es') : es = es' := by
  induction es generalizing es' with
  | nil => cases es' <;> simp_all [serEntries]
  | cons e es ih =>
    cases es' with
    | nil => simp [serEntries] at h
    | cons e' es' =>
      simp only [serEntries, List.cons.injEq, true_and, List.append_assoc] at h
      obtain ⟨h₁, h⟩ := serBytes_append_inj h
      obtain ⟨h₂, h⟩ := serBytes_append_inj h
      rw [ih h, Prod.ext h₁ h₂]

private theorem serEntries_ne_nil (es : List (Bytes × Bytes)) : serEntries es ≠ [] := by
  cases es <;> simp [serEntries]

theorem sampleCollaborators_hashBinding : HashBinding sampleCollaborators := by
  rintro v ⟨es, hes⟩ v' ⟨es', hes'⟩ h
  simp only [sampleCollaborators, normaliseHash, List.length_eq_zero, serEntries_ne_nil, if_false] at h
  cases serEntries_inj h
  rfl

theorem sampleCollaborators_commitID_roundTrip : sampleCollaborators.commitID.RoundTrip := by
  rintro ⟨hash, height, version⟩ bs h
  simp only [sampleCollaborators] at h ⊢
  split_ifs at h with hz
  obtain ⟨rfl, rfl⟩ := hz
  cases h
  rfl

theorem committed_hash_loadable_sample :
    sampleCollaborators.commitID.RoundTrip ∧ HashBinding sampleCollaborators ∧ CommitsLoadable sampleCollaborators :=
  ⟨sampleCollaborators_commitID_roundTrip, sampleCollaborators_hashBinding,
    committed_hash_loadable sampleCollaborators sampleCollaborators_commitID_roundTrip sampleCollaborators_hashBinding⟩

/-! ### The hash of the state -/

private theorem eq_normaliseHash_iff {h : Bytes} : h = normaliseHash h ↔ h ≠ [] := by
  unfold normaliseHash
  split_ifs with h0 <;> simp_all [tmhashSize]

/-- `Update` returns the normalised hash of the version it sealed while `Hash()` reports `Save`'s: after a
commit that returns `hash`, `hash` normalises `Hash()`, which is `hash` exactly when the sealed hash is not empty. -/
theorem hash_agrees_iff_nonempty :
    (∀ {s s' : State} {hash : Bytes}, s.commit env = (s', .ok hash) →
      normaliseHash s'.hash = hash ∧ (s'.hash = hash ↔ s'.hash ≠ [])) ∧
    (∀ {s s' : State} {u : Updater} {hash : Bytes}, s.update env u = (s', .ok hash) →
      normaliseHash s'.hash = hash ∧ (s'.hash = hash ↔ s'.hash ≠ [])) := by
  have hc : ∀ {s s' : State} {hash : Bytes}, s.commit env = (s', .ok hash) →
      normaliseHash s'.hash = hash ∧ (s'.hash = hash ↔ s'.hash ≠ []) := fun h => by
    rw [← commit_hash_normalises env _ h]
    exact ⟨rfl, eq_normaliseHash_iff⟩
  exact ⟨hc, fun h => hc (update_ok env h).2⟩

/-- The sample collaborators, with the empty hash for the empty tree, as the spec allows of a first `Save`. -/
def emptyHashCollaborators : Collaborators :=
  { sampleCollaborators with
    treeHash := fun _ contents => if contents.entries = [] then [] else serEntries contents.entries }

theorem hash_agrees_iff_nonempty_emptyTree :
    ∃ s', (newState DB.empty).update emptyHashCollaborators (.done none) = (s', .ok (List.replicate tmhashSize 0)) ∧
      s'.hash = [] ∧ s'.hash ≠ List.replicate tmhashSize 0 := by
  obtain ⟨s', hs⟩ : ∃ s', (newState DB.empty).update emptyHashCollaborators (.done none) =
      (s', .ok (List.replicate tmhashSize 0)) := ⟨_, rfl⟩
  have hh : s'.hash = [] := by
    rw [show s' = ((newState DB.empty).update emptyHashCollaborators (.done none)).1 by rw [hs]]
    rfl
  exact ⟨s', hs, hh, fun he => ((hash_agrees_iff_nonempty emptyHashCollaborators).2 hs).2.1 he hh⟩

end BurrowState
