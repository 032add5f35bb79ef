namespace LinuxCoding.Transition

-- A step emits the events an observer can see; a run keeps them in order.
-- Runs grow at the end, so every earlier state of a run is the end of a run too.
inductive Runs (step : σ → List ε → σ → Prop) : σ → List ε → σ → Prop where
  | nil : Runs step s [] s
  | step : Runs step origin log middle → step middle emitted after →
      Runs step origin (log ++ emitted) after

theorem Runs.one {step : σ → List ε → σ → Prop} (taken : step s emitted t) : Runs step s emitted t := by
  simpa using Runs.step Runs.nil taken

theorem Runs.append {step : σ → List ε → σ → Prop} (left : Runs step s earlier m)
    (right : Runs step m later t) : Runs step s (earlier ++ later) t := by
  induction right with
  | nil => simpa using left
  | step prior taken ih => simpa only [List.append_assoc] using Runs.step ih taken

theorem Runs.head {step : σ → List ε → σ → Prop} (run : Runs step s log t) :
    log = [] ∧ t = s ∨ ∃ emitted u later, step s emitted u ∧ Runs step u later t ∧ log = emitted ++ later := by
  induction run with
  | nil => exact .inl ⟨rfl,rfl⟩
  | step prior taken ih =>
    rcases ih with ⟨rfl,rfl⟩ | ⟨first,u,later,begun,rest,rfl⟩
    · exact .inr ⟨_,_,[],taken,.nil,by simp⟩
    · exact .inr ⟨first,u,_,begun,rest.step taken,by rw [List.append_assoc]⟩

-- The invariant may speak about the events emitted so far as well as the state.
theorem Runs.invariant {step : σ → List ε → σ → Prop} {I : List ε → σ → Prop}
    (kept : ∀ log s emitted t, I log s → step s emitted t → I (log ++ emitted) t)
    (start : I [] s) (run : Runs step s log t) : I log t := by
  induction run with
  | nil => exact start
  | step prior taken ih => exact kept _ _ _ _ ih taken

theorem Runs.stateInvariant {step : σ → List ε → σ → Prop} {I : σ → Prop}
    (kept : ∀ s emitted t, I s → step s emitted t → I t)
    (start : I s) (run : Runs step s log t) : I t :=
  run.invariant (I := fun _ s => I s) (fun _ s emitted t => kept s emitted t) start

-- The runs all of whose steps meet a condition on the state before the step
-- and on the events of the step.
def Where (step : σ → List ε → σ → Prop) (cond : σ → List ε → Prop) : σ → List ε → σ → Prop :=
  fun s emitted t => step s emitted t ∧ cond s emitted

theorem Runs.mono {step weaker : σ → List ε → σ → Prop}
    (implies : ∀ s emitted t, step s emitted t → weaker s emitted t)
    (run : Runs step s log t) : Runs weaker s log t := by
  induction run with
  | nil => exact .nil
  | step prior taken ih => exact .step ih (implies _ _ _ taken)

theorem Runs.unrestricted {step : σ → List ε → σ → Prop} {cond : σ → List ε → Prop}
    (run : Runs (Where step cond) s log t) : Runs step s log t :=
  run.mono (fun _ _ _ taken => taken.1)

-- Forward simulation: each step of the lower system is matched by a run of the
-- upper one that emits the translated events.
theorem Runs.simulation {step : σ → List ε → σ → Prop} {above : τ → List δ → τ → Prop}
    {f : List ε → List δ} {R : σ → τ → Prop}
    (empty : f [] = []) (joins : ∀ x y, f (x ++ y) = f x ++ f y)
    (matched : ∀ s u emitted t, R s u → step s emitted t →
      ∃ v, Runs above u (f emitted) v ∧ R t v)
    (start : R s u) (run : Runs step s log t) :
    ∃ v, Runs above u (f log) v ∧ R t v := by
  induction run with
  | nil => exact ⟨u,by rw [empty]; exact .nil,start⟩
  | step prior taken ih =>
    obtain ⟨v,path,relatedMiddle⟩ := ih
    obtain ⟨w,more,relatedAfter⟩ := matched _ _ _ _ relatedMiddle taken
    exact ⟨w,by rw [joins]; exact path.append more,relatedAfter⟩

-- What a run emits is paid for by what a potential loses, when every step does so.
theorem Runs.potential {step : σ → List ε → σ → Prop} {I : σ → Prop} {cost : List ε → Int} {potential : σ → Int}
    (empty : cost [] = 0) (joins : ∀ x y, cost (x ++ y) = cost x + cost y)
    (kept : ∀ s emitted t, I s → step s emitted t → I t ∧ cost emitted + potential t ≤ potential s)
    (start : I s) (run : Runs step s log t) : I t ∧ cost log + potential t ≤ potential s := by
  induction run with
  | nil => exact ⟨start,by omega⟩
  | step prior taken ih =>
    obtain ⟨holds,paid⟩ := ih
    obtain ⟨after,more⟩ := kept _ _ _ holds taken
    rw [joins]
    exact ⟨after,by omega⟩

def Stuck (step : σ → List ε → σ → Prop) (s : σ) : Prop := ∀ emitted t, ¬ step s emitted t

-- With a measure that falls in every step each state has a run to its end.
theorem Runs.ending (step : σ → List ε → σ → Prop) {measure : σ → Nat} (falls : ∀ s emitted t, step s emitted t → measure t < measure s)
    (s : σ) : ∃ log t, Runs step s log t ∧ Stuck step t := by
  induction left : measure s using Nat.strongRecOn generalizing s with
  | ind left ih =>
    by_cases moves : ∃ emitted next, step s emitted next
    · obtain ⟨emitted,next,taken⟩ := moves
      obtain ⟨log,t,run,ends⟩ := ih (measure next) (left ▸ falls _ _ _ taken) next rfl
      exact ⟨_,t,(Runs.one taken).append run,ends⟩
    · exact ⟨[],s,.nil,fun emitted next taken => moves ⟨emitted,next,taken⟩⟩

-- The same where each step shows something and no run is longer than a bound.
theorem Runs.longest {step : σ → List ε → σ → Prop} (bounded : ∀ log t, Runs step s log t → log.length ≤ most)
    (shows : ∀ t emitted u, step t emitted u → emitted ≠ []) : ∃ log t, Runs step s log t ∧ Stuck step t := by
  apply Classical.byContradiction
  intro endless
  have longer : ∀ count, ∃ log t, Runs step s log t ∧ count ≤ log.length := by
    intro count
    induction count with
    | zero => exact ⟨[],s,.nil,Nat.zero_le _⟩
    | succ count ih =>
      obtain ⟨log,t,run,enough⟩ := ih
      have moves : ∃ emitted u, step t emitted u := by
        apply Classical.byContradiction
        exact fun none => endless ⟨log,t,run,fun emitted u taken => none ⟨emitted,u,taken⟩⟩
      obtain ⟨emitted,u,taken⟩ := moves
      have some := List.length_pos_iff.mpr (shows t emitted u taken)
      refine ⟨_,u,run.step taken,?_⟩
      rw [List.length_append]
      omega
  obtain ⟨log,t,run,enough⟩ := longer (most + 1)
  exact Nat.not_succ_le_self most (Nat.le_trans enough (bounded log t run))

-- Where every state of a kind has a run to one of the kind with less, the end is reached.
theorem Runs.descends {step : σ → List ε → σ → Prop} {I ends : σ → Prop} (rank : σ → Nat)
    (onward : ∀ s, I s → ends s ∨ ∃ log t, Runs step s log t ∧ I t ∧ rank t < rank s) (holds : I s) : ∃ log t, Runs step s log t ∧ ends t := by
  induction left : rank s using Nat.strongRecOn generalizing s with
  | ind left ih =>
    rcases onward s holds with done | ⟨first,u,begun,kept,less⟩
    · exact ⟨[],s,.nil,done⟩
    · obtain ⟨later,t,rest,done⟩ := ih (rank u) (left ▸ less) kept rfl
      exact ⟨_,t,begun.append rest,done⟩

end LinuxCoding.Transition
