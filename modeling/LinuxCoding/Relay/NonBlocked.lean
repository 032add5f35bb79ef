import LinuxCoding.Library.Transition
import LinuxCoding.Relay.Loop

-- proIO/non-blocked/relay.c and realy_file.c: the loop drives both machines in every pass.
namespace LinuxCoding.Relay.NonBlocked
open Transition

theorem states_distinct : [(1 : Int),2,3,4].Nodup := by decide

def states : States := ⟨1,2,3,4,states_distinct⟩

structure Input where
  answer12 : Answer
  answer21 : Answer

-- The body of the loop.
def pass (m : Machines) (input : Input) : Pass Machines := driveBoth states m true true input.answer12 input.answer21

structure Input.Fits (input : Input) (m : Machines) : Prop where
  answer12 : input.answer12.Fits m.fsm12
  answer21 : input.answer21.Fits m.fsm21

inductive Step : Machines → List Direction → Machines → Prop where
  | pass (input : Input) : ¬Finished states m → input.Fits m → NonBlocked.pass m input = .again after calls → Step m calls after

theorem pass_drives (ran : pass m input = .again after calls) : calls = [.fsm12,.fsm21] ∧ ∃ effect12 effect21,
    fsmDriver states m.fsm12 input.answer12 = some (after.fsm12,effect12) ∧
      fsmDriver states m.fsm21 input.answer21 = some (after.fsm21,effect21) := by
  have both : calls = [.fsm12,.fsm21] := by
    unfold pass driveBoth at ran
    split at ran
    · cases ran
    · split at ran
      · cases ran
      · cases ran
        rfl
  obtain ⟨ran12,ran21,_,_⟩ := driveBoth_parts ran
  rcases driveIf_cases ran12 with ⟨off,_⟩ | ⟨_,effect12,drove12⟩
  · cases off
  · rcases driveIf_cases ran21 with ⟨off,_⟩ | ⟨_,effect21,drove21⟩
    · cases off
    · exact ⟨both,effect12,effect21,drove12,drove21⟩

end LinuxCoding.Relay.NonBlocked
