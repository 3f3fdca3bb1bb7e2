import NeKernel.Sched.ProcessSlots

/-!
# How many processes a team counts

The count follows the live processes as long as `Spawn` fails before it counts or not at all, and
`Exit` is reached once for each process.
-/

namespace Ne.Kernel.Sched
open Runs

def CountsLive (h : History) : Prop := h.team.mProcessCur = h.live.length

/-- The call raises or lowers the count together with the number of live processes. -/
def Paired (call : SchedCall) (h : History) : Prop :=
  (∀ vm name code image imageSz heap, call = .spawn vm name code image imageSz heap →
    ¬ Rejects name code h.team → ∀ text, name = some text →
      Granted text heap (h.team.mProcessList h.team.mProcessCur)) ∧
  ∀ pid, call.leaves h.team = some pid → pid ∈ h.live

section Steps
variable {call : SchedCall} {h h' : History}

theorem spawns_paired (counts : CountsLive h) (stays : call.leaves h.team = none) (spawns : Spawns call h h') :
    CountsLive h' ↔ Paired call h := by
  obtain ⟨vm, name, code, image, imageSz, heap, pid, rfl, spawned, live⟩ := spawns
  have noExit : ∀ pid, (SchedCall.spawn vm name code image imageSz heap).leaves h.team = some pid →
      pid ∈ h.live := fun pid goes => by
    rw [stays] at goes
    cases goes
  unfold CountsLive at counts ⊢
  rcases Spawn_cases spawned with ⟨rejected, negative, same⟩ | ⟨accepted, low, counted, text, rfl, result⟩
  · rw [if_pos negative] at live
    refine ⟨fun _ => ⟨?_, noExit⟩, fun _ => by rw [same, live, counts]⟩
    rintro vm name code image imageSz heap ⟨⟩ accepted
    exact absurd rejected accepted
  · rcases result with ⟨refused, negative⟩ | ⟨granted, rfl, -⟩
    · rw [if_pos negative] at live
      rw [counted.1, live, counts]
      constructor
      · intro equal
        have more : (h.live.length : Int) + 1 = h.live.length := equal
        omega
      · intro paired
        exact absurd (paired.1 _ _ _ _ _ _ rfl accepted text rfl) refused
    · rw [if_neg (not_lt.mpr low)] at live
      rw [counted.1, live, counts, List.length_cons]
      refine ⟨fun _ => ⟨?_, noExit⟩, fun _ => (Int.natCast_succ _).symm⟩
      rintro vm name code image imageSz heap ⟨⟩ - text ⟨⟩
      exact granted

theorem leaves_paired {pid : ProcessID} (counts : CountsLive h) (goes : call.leaves h.team = some pid)
    (leaves : Leaves h h' pid) : CountsLive h' ↔ Paired call h := by
  have noSpawn : ∀ vm name code image imageSz heap, call = .spawn vm name code image imageSz heap →
      ¬ Rejects name code h.team → ∀ text, name = some text →
        Granted text heap (h.team.mProcessList h.team.mProcessCur) := by
    rintro vm name code image imageSz heap rfl
    cases goes
  unfold CountsLive at counts ⊢
  rw [leaves.1, leaves.2.2, counts]
  by_cases live : pid ∈ h.live
  · have positive := List.length_pos_of_mem live
    rw [List.length_erase_of_mem live]
    refine ⟨fun _ => ⟨noSpawn, fun pid' goes' => ?_⟩, fun _ => (Int.natCast_pred_of_pos positive).symm⟩
    obtain rfl := Option.some.inj (goes.symm.trans goes')
    exact live
  · rw [List.erase_of_not_mem live]
    constructor
    · intro equal
      have fewer : (h.live.length : Int) - 1 = h.live.length := equal
      omega
    · exact fun paired => absurd (paired.2 pid goes) live

theorem step_paired (counts : CountsLive h) (taken : SchedStep call h h') : CountsLive h' ↔ Paired call h := by
  rcases step_cases taken with ⟨stays, ⟨⟨returns, pid, rfl⟩, rfl⟩ | spawns⟩ | ⟨pid, goes, leaves⟩
  · refine ⟨fun _ => ⟨?_, fun pid' goes => ?_⟩, fun _ => counts⟩
    · rintro vm name code image imageSz heap ⟨⟩
    · rw [stays] at goes
      cases goes
  · exact spawns_paired counts stays spawns
  · exact leaves_paired counts goes leaves

end Steps

end Ne.Kernel.Sched
