import BurrowState.Execution.Copy

/-!
# What readers see of an `Update`

The readers of `State` take no lock and read the last saved version of the tree, so at every state an updater
passes through they answer as before the `Update`, and they see its calls once the commit has saved the tree, even
when the commit then fails to encode the `CommitID` (`update_publishes_at_save`).
-/

namespace BurrowState

open State

variable (env : Collaborators)

/-- The states an updater passes through on the write view, any of which a reader without a lock can observe. -/
inductive Updater.Passes : Updater → State → State → Prop
  | start (u : Updater) (s : State) : Updater.Passes u s s
  | call {w : Write} {k : Option GoError → Updater} {s s' : State} :
      Updater.Passes (k (w.exec env s).2) (w.exec env s).1 s' → Updater.Passes (.call w k) s s'

/-- An updater's calls change no part of the state that a reader or the database holds. -/
theorem Updater.Passes.writeFrame {u : Updater} {s s' : State} (h : Updater.Passes env u s s') : WriteFrame s s' := by
  induction h with
  | start => exact .refl _
  | @call w _ s _ _ ih => exact (exec_frame env s w).trans ih

/-- Readers that take no lock see an `Update` only once its commit has saved the tree: at every state an updater
passes through they answer as before it, and, with codecs that round-trip, after an `Update` whose `Save` succeeds
but whose `CommitID` does not encode they answer as the model of all the calls so far, over the old database. -/
theorem update_publishes_at_save (hacc : env.account.RoundTrip) (hent : env.entry.RoundTrip) :
    (∀ {u : Updater} {s s' : State}, Updater.Passes env u s s' →
      (∀ a, s'.getAccount env a = s.getAccount env a) ∧ (∀ a k, s'.getStorage a k = s.getStorage a k) ∧
        (∀ n, s'.getName env n = s.getName env n) ∧ (∀ c, s'.iterateAccounts env c = s.iterateAccounts env c) ∧
        (∀ a c, s'.iterateStorage a c = s.iterateStorage a c) ∧ ∀ c, s'.iterateNames env c = s.iterateNames env c) ∧
    ∀ {db : DB} {s s' : State} {ws calls : List Write} {cs : List (Bytes × State)} {u : Updater} {e : GoError},
      Run env (newState db) s ws calls cs → s.update env u = (s', .error e) → (u.run env s).2.1 = none →
        (u.run env s).1.Saves env → ReadsAs env s' (Model.ofWrites (ws ++ (u.run env s).2.2)) ∧ s'.db = s.db := by
  refine ⟨fun h => ?_, @fun db s s' ws _ cs u e hrun hu hnil hs => ?_⟩
  · have hread := (h.writeFrame env).readTree
    obtain ⟨h₁, h₂, h₃⟩ := readers_of_readTree env hread
    exact ⟨h₁, h₂, h₃, iterators_of_readTree env hread⟩
  · obtain ⟨hnone, -⟩ | ⟨-, hcommit⟩ := update_error env hu
    · rw [hnil] at hnone
      cases hnone
    obtain ⟨⟨hw, hc⟩, -⟩ := run_represents_model env (Run.error u hrun hu)
    obtain ⟨hwk, hrt⟩ := commit_eq_tree env hs hcommit
    have hdb := (commit_error env (u.run env s).1 (show ((u.run env s).1.commit env).2 = .error e by rw [hcommit])).2
    rw [hcommit] at hdb
    exact ⟨readsAs_of_represents hacc hent (by rwa [hrt, ← hwk]) hc, hdb.trans (run_frame env u s).db⟩

/-- A name removed by an `Update` whose commit fails is no longer found, over the database of the first commit. -/
theorem update_publishes_at_save_sample :
    let u₁ := Updater.ofWrites [.updateName ⟨[7], globalPermissionsAddress, "", 0⟩]
    let u₂ := Updater.ofWrites [.removeName [7]]
    let r₁ := (newState DB.empty).update sampleCollaborators u₁
    let r₂ := r₁.1.update sampleCollaborators u₂
    sampleCollaborators.account.RoundTrip ∧ sampleCollaborators.entry.RoundTrip ∧
      r₁.1.getName sampleCollaborators [7] = .ok (some ⟨[7], globalPermissionsAddress, "", 0⟩) ∧
      r₂.2 = .error (.error "could not encode CommitID %v: %v") ∧
      r₂.1.getName sampleCollaborators [7] = .ok none ∧ r₂.1.db = r₁.1.db := by
  intro u₁ u₂ r₁ r₂
  obtain ⟨hash, h₁⟩ : ∃ hash, (newState DB.empty).update sampleCollaborators u₁ = (r₁.1, .ok hash) := ⟨_, rfl⟩
  have h₂ : r₁.1.update sampleCollaborators u₂ = (r₂.1, .error (.error "could not encode CommitID %v: %v")) := rfl
  obtain ⟨hreads, hdb⟩ := (update_publishes_at_save sampleCollaborators sampleCollaborators_account_roundTrip
    sampleCollaborators_entry_roundTrip).2 (Run.ok u₁ (@Run.nil sampleCollaborators _) h₁) h₂ rfl rfl
  exact ⟨sampleCollaborators_account_roundTrip, sampleCollaborators_entry_roundTrip, rfl, congrArg Prod.snd h₂,
    (hreads.getName [7]).trans rfl, hdb⟩

end BurrowState
