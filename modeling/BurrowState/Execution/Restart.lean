import BurrowState.Execution.Commit

/-!
# Restarting from a committed hash

A node restarts by `LoadState` of a hash it committed and goes on with `Update` calls.  The loaded state represents
the model the readers answered right after the commit (`run_commits_represent`), so after every later successful
`Update` the readers answer as that model with the calls since the restart applied
(`restart_continues_committed_model`).
-/

namespace BurrowState

open State

variable (env : Collaborators)

/-- Along a run from `NewState`, the last saved version of every commit represents a model. -/
theorem run_commits_represent {db : DB} {s : State} {ws calls : List Write} {cs : List (Bytes × State)}
    (hrun : Run env (newState db) s ws calls cs) :
    ∀ c ∈ cs, ∃ m, Represents env m c.2.tree.readTree ∧ m.Consistent env := by
  induction hrun with
  | nil => exact fun _ h => absurd h (List.not_mem_nil _)
  | @ok s s' ws _ cs hash u hrun hu ih =>
    intro c hc
    rcases List.mem_append.1 hc with hc | hc
    · exact ih c hc
    · rw [List.mem_singleton.1 hc]
      exact (run_represents_model env (Run.ok u hrun hu)).2
  | error _ _ _ ih => exact ih

/-- A restart goes on from the committed model: with codecs that round-trip and a binding hash, after any commit
of a run from `NewState` the readers answer as some model, `LoadState` of its hash answers as that model, and after
every later successful `Update` the readers answer as it with the calls since the restart that returned `nil`. -/
theorem restart_continues_committed_model (hacc : env.account.RoundTrip) (hent : env.entry.RoundTrip)
    (hcid : env.commitID.RoundTrip) (hbind : HashBinding env) {db : DB} {s : State} {ws calls : List Write}
    {cs : List (Bytes × State)} (hrun : Run env (newState db) s ws calls cs) {c : Bytes × State} (hc : c ∈ cs) :
    ∃ m, ReadsAs env c.2 m ∧ ∃ s₀, loadState env s.db c.1 = .ok s₀ ∧ ReadsAs env s₀ m ∧
      ∀ {s₁ s₂ : State} {ws' calls' : List Write} {cs' : List (Bytes × State)} {u : Updater} {hash : Bytes},
        Run env s₀ s₁ ws' calls' cs' → s₁.update env u = (s₂, .ok hash) →
          ReadsAs env s₂ ((ws' ++ (u.run env s₁).2.2).foldl Model.apply m) := by
  obtain ⟨m, hm, hmc⟩ := run_commits_represent env hrun c hc
  obtain ⟨-, s₀, hload, hwk, hrt⟩ := (run_commitInv env hrun).loadState_tree env hcid hbind hc
  refine ⟨m, readsAs_of_represents hacc hent hm hmc, s₀, hload, readsAs_of_represents hacc hent (hrt ▸ hm) hmc,
    fun hrun' hu => ?_⟩
  obtain ⟨⟨hw, hwc⟩, -⟩ := run_represents_from env (hwk ▸ hm) hmc ⟨m, hrt ▸ hm, hmc⟩ (Run.ok _ hrun' hu)
  exact readsAs_of_represents hacc hent (readTree_of_update_ok env hu ▸ hw) hwc

/-- The sample collaborators with a `CommitID` codec that also round-trips at version 2. -/
def restartCollaborators : Collaborators :=
  { sampleCollaborators with
    commitID :=
      ⟨fun c => if c.height = 0 ∧ (c.version = 1 ∨ c.version = 2) then .ok (c.version.toNat.toUInt8 :: c.hash)
          else .error (.error "unsupported commit"),
        fun bs => match bs with
          | v :: bs => .ok ⟨bs, 0, v.toNat⟩
          | [] => .error (.error "not a commit")⟩ }

private theorem restartCollaborators_commitID_roundTrip : restartCollaborators.commitID.RoundTrip := by
  rintro ⟨hash, height, version⟩ bs h
  simp only [restartCollaborators] at h ⊢
  split_ifs at h with hz
  obtain ⟨rfl, rfl | rfl⟩ := hz <;> cases h <;> rfl

/-- A name registered before a restart is read after it, and a removal after the restart is read too. -/
theorem restart_continues_committed_model_sample :
    let u₁ := Updater.ofWrites [.updateName ⟨[7], globalPermissionsAddress, "", 0⟩]
    let u₂ := Updater.ofWrites [.removeName [7]]
    let r₁ := (newState DB.empty).update restartCollaborators u₁
    restartCollaborators.commitID.RoundTrip ∧
      ∃ hash s₀, r₁.2 = .ok hash ∧ loadState restartCollaborators r₁.1.db hash = .ok s₀ ∧
        s₀.getName restartCollaborators [7] = .ok (some ⟨[7], globalPermissionsAddress, "", 0⟩) ∧
        (∃ hash₂, (s₀.update restartCollaborators u₂).2 = .ok hash₂) ∧
        (s₀.update restartCollaborators u₂).1.getName restartCollaborators [7] = .ok none := by
  intro u₁ u₂ r₁
  have h₁ : (newState DB.empty).update restartCollaborators u₁ = (r₁.1, .ok (normaliseHash r₁.1.hash)) := rfl
  obtain ⟨m, hc, s₀, hload, hs₀, hnext⟩ := restart_continues_committed_model restartCollaborators
    sampleCollaborators_account_roundTrip sampleCollaborators_entry_roundTrip restartCollaborators_commitID_roundTrip
    sampleCollaborators_hashBinding (Run.ok u₁ (@Run.nil restartCollaborators _) h₁) (List.mem_singleton_self _)
  have hs : s₀ =
      { newState r₁.1.db with tree := ⟨r₁.1.tree.readTree, r₁.1.tree.readTree, r₁.1.tree.readHash, 1⟩ } :=
    Except.ok.inj (hload.symm.trans rfl)
  obtain ⟨hash₂, h₂⟩ : ∃ hash₂, s₀.update restartCollaborators u₂ =
      ((s₀.update restartCollaborators u₂).1, .ok hash₂) := ⟨_, by rw [hs]; rfl⟩
  have hread := (hnext (@Run.nil restartCollaborators _) h₂).getName [7]
  refine ⟨restartCollaborators_commitID_roundTrip, _, s₀, congrArg Prod.snd h₁, hload,
    (hs₀.getName [7]).trans ((hc.getName [7]).symm.trans rfl), ⟨hash₂, congrArg Prod.snd h₂⟩, hread.trans ?_⟩
  rw [hs]
  rfl

end BurrowState
