import Mathlib.Data.List.Count
import Mathlib.Data.Int.Basic

-- The handles of show_dir in IO/dir/statistic.c, and the errno by which it tells the end of
-- a directory from an error.
namespace LinuxCoding.DirStat.Handles

-- A library call leaves errno as it is, or sets it.
abbrev Effect : Type := Option Int

def after (errno : Int) (calls : List Effect) : Int := calls.foldl (fun errno call => call.getD errno) errno

-- What happens in the loop over one directory. Of the library calls only the effects are
-- kept. An entry is any pass without a nested handle: "." and "..", a file with or without
-- its lines counted, a link, a directory that opendir does not open. In the pass that is
-- lost code_counter calls exit. The loop ends where readdir returns NULL, with the errno
-- of an error or at the end of the directory, and then prints and closes.
inductive Stream where
  | entry (calls : List Effect) (rest : Stream)
  | dir (before : List Effect) (sub : Stream) (later : List Effect) (rest : Stream)
  | lost
  | null (error : Option {e : Int // e ≠ 0}) (printed closed : List Effect)

-- The end of a directory is misread where it is taken for an error.
inductive Event where
  | opened (handle : Nat)
  | closed (handle : Nat)
  | misread (handle : Nat)
  deriving DecidableEq

structure World where
  errno : Int
  handles : Nat
  log : List Event
  exited : Bool

def World.calls (w : World) (calls : List Effect) : World := {w with errno := after w.errno calls}
def World.emits (w : World) (events : List Event) : World := {w with log := w.log ++ events}

-- opendir returns a new handle, and errno = 0 follows the printf.
def World.opens (w : World) : World := {w with errno := 0, handles := w.handles + 1, log := w.log ++ [.opened w.handles]}

-- while(1) of show_dir and the closedir after it
def loop (dir : Nat) : Stream → World → World
  | .entry calls rest,w => loop dir rest (w.calls calls)
  | .dir before sub later rest,w =>
    let inner := loop w.handles sub (w.calls before).opens
    if inner.exited then inner else loop dir rest (inner.calls later)
  | .lost,w => {w with exited := true}
  | .null error printed closed,w =>
    let w : World := {w with errno := (error.map Subtype.val).getD w.errno}
    if w.errno = 0 then (w.calls (printed ++ closed)).emits [.closed dir]
    else
      let misread := if error.isNone then [.misread dir] else []
      (w.calls (printed ++ closed)).emits (misread ++ [.closed dir,.closed dir])

def showDir (stream : Stream) (w : World) : World := loop w.handles stream w.opens

-- main, where opendir opens argv[1] or not.
def main (argument : Option Stream) : World :=
  match argument with
  | none => ⟨0,0,[],false⟩
  | some stream => showDir stream ⟨0,0,[],false⟩

def Once (log : List Event) : Prop :=
  (∀ handle, .misread handle ∉ log) ∧ ∀ handle, .opened handle ∈ log → log.count (.closed handle) = 1

-- The effects on errno after the loop has ended, and of its passes, with the `errno = 0`
-- of each nested show_dir.
def Stream.closing : Stream → List Effect
  | .entry _ rest => rest.closing
  | .dir _ _ _ rest => rest.closing
  | .lost => []
  | .null _ printed closed => printed ++ closed

def Stream.effects : Stream → List Effect
  | .entry calls rest => calls ++ rest.effects
  | .dir before sub later rest => before ++ (some 0 :: sub.effects) ++ sub.closing ++ later ++ rest.effects
  | .lost => []
  | .null _ _ _ => []

-- No pass is lost, no readdir fails, and errno is 0 at the end of each nested directory.
def Stream.Clean : Stream → Prop
  | .entry _ rest => rest.Clean
  | .dir _ sub _ rest => sub.Clean ∧ after 0 sub.effects = 0 ∧ rest.Clean
  | .lost => False
  | .null error _ _ => error = none

theorem after_append (errno : Int) (calls more : List Effect) : after errno (calls ++ more) = after (after errno calls) more :=
  List.foldl_append

theorem after_cons_some (errno value : Int) (calls : List Effect) : after errno (some value :: calls) = after value calls := rfl

-- The handles that a loop answers for are its own and those opened in it.
def Answers (dir low high handle : Nat) : Prop := handle = dir ∨ low ≤ handle ∧ handle < high

def Settled (dir low high : Nat) (new : List Event) : Prop :=
  (∀ handle, .misread handle ∉ new) ∧ ∀ handle, Answers dir low high handle → new.count (.closed handle) = 1

structure Ledger (dir : Nat) (stream : Stream) (w r : World) (new : List Event) : Prop where
  log : r.log = w.log ++ new
  more : w.handles ≤ r.handles
  opened : ∀ handle, .opened handle ∈ new ↔ w.handles ≤ handle ∧ handle < r.handles
  closed : ∀ handle, .closed handle ∈ new → Answers dir w.handles r.handles handle
  settled : Settled dir w.handles r.handles new ↔ stream.Clean ∧ after w.errno stream.effects = 0
  returns : stream.Clean → after w.errno stream.effects = 0 →
    r.exited = false ∧ r.errno = after w.errno (stream.effects ++ stream.closing)

theorem Ledger.entry (ledger : Ledger dir rest (w.calls calls) r new) : Ledger dir (.entry calls rest) w r new := by
  obtain ⟨log,more,opened,closed,settled,returns⟩ := ledger
  refine ⟨log,more,opened,closed,?_,?_⟩
  · rw [Stream.Clean,Stream.effects,after_append]
    exact settled
  · intro clean ends
    rw [Stream.effects,after_append] at ends
    rw [Stream.effects,Stream.closing,List.append_assoc,after_append]
    exact returns clean ends

theorem opens_none {new : List Event} (none : ∀ handle, .opened handle ∉ new) (low handle : Nat) :
    .opened handle ∈ new ↔ low ≤ handle ∧ handle < low :=
  ⟨fun member => absurd member (none handle),fun ⟨above,below⟩ => absurd above (Nat.not_le.mpr below)⟩

theorem lost_ledger : Ledger dir .lost w {w with exited := true} [] := by
  refine ⟨by simp,Nat.le_refl _,opens_none (by simp) _,by simp,?_,nofun⟩
  · constructor
    · intro ⟨_,once⟩
      have closed := once dir (.inl rfl)
      cases closed
    · intro ⟨clean,_⟩
      exact clean.elim

-- readdir fails: the handle is closed in the branch and behind the loop.
theorem failed_ledger {w r : World} (log : r.log = w.log ++ [.closed dir,.closed dir]) (handles : r.handles = w.handles) :
    Ledger dir (.null (some e) printed closed) w r [.closed dir,.closed dir] := by
  refine ⟨log,Nat.le_of_eq handles.symm,?_,?_,?_,nofun⟩
  · rw [handles]
    exact opens_none (by simp) _
  · intro handle member
    simp only [List.mem_cons,List.not_mem_nil,or_false,or_self,Event.closed.injEq] at member
    exact .inl member
  · constructor
    · intro ⟨_,once⟩
      have twice := once dir (.inl rfl)
      simp at twice
    · intro ⟨clean,_⟩
      cases clean

theorem ended_ledger {w : World} (running : w.exited = false) (ends : w.errno = 0) :
    Ledger dir (.null none printed closed) w ((w.calls (printed ++ closed)).emits [.closed dir]) [.closed dir] := by
  refine ⟨rfl,Nat.le_refl _,opens_none (by simp) _,?_,?_,?_⟩
  · intro handle member
    simp only [List.mem_singleton,Event.closed.injEq] at member
    exact .inl member
  · refine ⟨fun _ => ⟨rfl,ends⟩,fun _ => ⟨by simp,?_⟩⟩
    intro handle answers
    rcases answers with own | nested
    · simp [own]
    · exact absurd nested.1 (Nat.not_le.mpr nested.2)
  · intro _ _
    exact ⟨running,rfl⟩

-- The end of the directory is taken for an error that an earlier call has left.
theorem misread_ledger {w : World} (ends : w.errno ≠ 0) :
    Ledger dir (.null none printed closed) w ((w.calls (printed ++ closed)).emits [.misread dir,.closed dir,.closed dir])
      [.misread dir,.closed dir,.closed dir] := by
  refine ⟨rfl,Nat.le_refl _,opens_none (by simp) _,?_,?_,?_⟩
  · intro handle member
    simp only [List.mem_cons,List.not_mem_nil,or_false,or_self,reduceCtorEq,false_or,Event.closed.injEq] at member
    exact .inl member
  · refine ⟨fun settled => ?_,fun ⟨_,zero⟩ => absurd zero ends⟩
    exact absurd List.mem_cons_self (settled.1 dir)
  · intro _ zero
    exact absurd zero ends

theorem null_ledger (running : w.exited = false) (error : Option {e : Int // e ≠ 0}) :
    ∃ new, Ledger dir (.null error printed closed) w (loop dir (.null error printed closed) w) new := by
  cases error with
  | some e =>
    have broken : loop dir (.null (some e) printed closed) w =
        ({w with errno := e.val}.calls (printed ++ closed)).emits [.closed dir,.closed dir] := by
      simp [loop,e.property]
    rw [broken]
    exact ⟨_,failed_ledger rfl rfl⟩
  | none =>
    by_cases ends : w.errno = 0
    · have ended : loop dir (.null none printed closed) w = (w.calls (printed ++ closed)).emits [.closed dir] := by
        simp [loop,ends,World.calls]
      rw [ended]
      exact ⟨_,ended_ledger running ends⟩
    · have misread : loop dir (.null none printed closed) w =
          (w.calls (printed ++ closed)).emits [.misread dir,.closed dir,.closed dir] := by
        simp [loop,ends,World.calls]
      rw [misread]
      exact ⟨_,misread_ledger ends⟩

-- A nested directory that exits in its loop leaves the handle of this one open.
theorem Ledger.lose {w : World} (inner : Ledger w.handles sub (w.calls before).opens r new) (here : dir < w.handles) (exited : r.exited = true) :
    Ledger dir (.dir before sub later rest) w r (.opened w.handles :: new) := by
  have lost : ¬ (sub.Clean ∧ after 0 sub.effects = 0) := by
    intro ⟨clean,ends⟩
    rw [(inner.returns clean ends).1] at exited
    cases exited
  have more : w.handles + 1 ≤ r.handles := inner.more
  have opened : ∀ handle, .opened handle ∈ new ↔ w.handles + 1 ≤ handle ∧ handle < r.handles := inner.opened
  refine ⟨?_,by omega,?_,?_,?_,?_⟩
  · rw [inner.log]
    simp [World.opens,World.calls]
  · intro handle
    rw [List.mem_cons,opened,Event.opened.injEq]
    omega
  · intro handle member
    rcases List.mem_cons.mp member with same | nested
    · cases same
    · have answers : handle = w.handles ∨ w.handles + 1 ≤ handle ∧ handle < r.handles := inner.closed handle nested
      exact .inr (by omega)
  · constructor
    · intro ⟨_,once⟩
      have closed := once dir (.inl rfl)
      rw [List.count_cons_of_ne (by simp)] at closed
      have nested : dir = w.handles ∨ w.handles + 1 ≤ dir ∧ dir < r.handles :=
        inner.closed dir (List.count_pos_iff.mp (by omega))
      omega
    · intro ⟨⟨clean,ends,_⟩,_⟩
      exact absurd ⟨clean,ends⟩ lost
  · intro ⟨clean,ends,_⟩ _
    exact absurd ⟨clean,ends⟩ lost

-- The events of a nested loop and of the later passes, behind the opendir.
theorem nested_mem {event : Event} (other : event ≠ .opened low) :
    event ∈ Event.opened low :: (first ++ second) ↔ event ∈ first ∨ event ∈ second := by
  rw [List.mem_cons,List.mem_append,or_iff_right other]

theorem nested_count (first second : List Event) (low handle : Nat) :
    (Event.opened low :: (first ++ second)).count (.closed handle) = first.count (.closed handle) + second.count (.closed handle) := by
  rw [List.count_cons_of_ne (by simp),List.count_append]

-- The handles of the nested loop and those of the later passes are different ones.
theorem settled_join {first second : List Event} (here : dir < low) (inside : low + 1 ≤ mid) (above : mid ≤ high)
    (nested : ∀ handle, .closed handle ∈ first → Answers low (low + 1) mid handle)
    (later : ∀ handle, .closed handle ∈ second → Answers dir mid high handle) :
    Settled dir low high (.opened low :: (first ++ second)) ↔ Settled low (low + 1) mid first ∧ Settled dir mid high second := by
  have quietSecond : ∀ handle, low ≤ handle → handle < mid → second.count (.closed handle) = 0 := by
    intro handle lowH highH
    apply List.count_eq_zero_of_not_mem
    intro member
    rcases later handle member with same | between <;> omega
  have quietFirst : ∀ handle, handle = dir ∨ mid ≤ handle → first.count (.closed handle) = 0 := by
    intro handle place
    apply List.count_eq_zero_of_not_mem
    intro member
    rcases nested handle member with same | between <;> omega
  constructor
  · intro ⟨read,once⟩
    have one : ∀ handle, Answers dir low high handle → first.count (.closed handle) + second.count (.closed handle) = 1 := by
      intro handle answers
      rw [← nested_count first second low]
      exact once handle answers
    refine ⟨⟨?_,?_⟩,⟨?_,?_⟩⟩
    · intro handle member
      exact read handle ((nested_mem (by simp)).mpr (.inl member))
    · intro handle answers
      have place : low ≤ handle ∧ handle < mid := by
        rcases answers with same | between <;> omega
      have both := one handle (.inr (by omega))
      rwa [quietSecond handle place.1 place.2] at both
    · intro handle member
      exact read handle ((nested_mem (by simp)).mpr (.inr member))
    · intro handle answers
      have both := one handle (answers.imp id fun between => ⟨by omega,between.2⟩)
      rwa [quietFirst handle (answers.imp id And.left),Nat.zero_add] at both
  · intro ⟨⟨readFirst,onceFirst⟩,⟨readSecond,onceSecond⟩⟩
    refine ⟨?_,?_⟩
    · intro handle member
      rcases (nested_mem (by simp)).mp member with first | second
      · exact readFirst handle first
      · exact readSecond handle second
    · intro handle answers
      rw [nested_count]
      rcases answers with same | between
      · rw [quietFirst handle (.inl same),onceSecond handle (.inl same)]
      · rcases Nat.lt_or_ge handle mid with below | beyond
        · rw [quietSecond handle between.1 below,onceFirst handle (by simp only [Answers]; omega)]
        · rw [quietFirst handle (.inr beyond),onceSecond handle (.inr ⟨beyond,between.2⟩)]

theorem Ledger.nested {w : World} (inner : Ledger w.handles sub (w.calls before).opens m first)
    (outer : Ledger dir rest (m.calls later) r second) (here : dir < w.handles) :
    Ledger dir (.dir before sub later rest) w r (.opened w.handles :: (first ++ second)) := by
  have moreInner : w.handles + 1 ≤ m.handles := inner.more
  have moreOuter : m.handles ≤ r.handles := outer.more
  have openedInner : ∀ handle, .opened handle ∈ first ↔ w.handles + 1 ≤ handle ∧ handle < m.handles := inner.opened
  have openedOuter : ∀ handle, .opened handle ∈ second ↔ m.handles ≤ handle ∧ handle < r.handles := outer.opened
  have settledInner : Settled w.handles (w.handles + 1) m.handles first ↔ sub.Clean ∧ after 0 sub.effects = 0 := inner.settled
  have settledOuter : Settled dir m.handles r.handles second ↔ rest.Clean ∧ after (after m.errno later) rest.effects = 0 := outer.settled
  have settled := settled_join here moreInner moreOuter inner.closed outer.closed
  -- Where the nested loop ends well, the effects of this pass are known.
  have pass : sub.Clean → after 0 sub.effects = 0 →
      after w.errno (Stream.dir before sub later rest).effects = after (after m.errno later) rest.effects := by
    intro clean ends
    have errno : m.errno = after 0 (sub.effects ++ sub.closing) := (inner.returns clean ends).2
    simp only [Stream.effects,after_append,after_cons_some,errno]
  refine ⟨?_,by omega,?_,?_,?_,?_⟩
  · rw [outer.log]
    change m.log ++ second = _
    rw [inner.log]
    simp [World.opens,World.calls]
  · intro handle
    rw [List.mem_cons,List.mem_append,openedInner,openedOuter,Event.opened.injEq]
    omega
  · intro handle member
    rcases (nested_mem (by simp)).mp member with nested | later
    · have answers : handle = w.handles ∨ w.handles + 1 ≤ handle ∧ handle < m.handles := inner.closed handle nested
      exact .inr (by omega)
    · have answers : handle = dir ∨ m.handles ≤ handle ∧ handle < r.handles := outer.closed handle later
      simp only [Answers]
      omega
  · rw [settled,settledInner,settledOuter]
    constructor
    · intro ⟨⟨clean,ends⟩,⟨cleanRest,endsRest⟩⟩
      exact ⟨⟨clean,ends,cleanRest⟩,(pass clean ends).trans endsRest⟩
    · intro ⟨⟨clean,ends,cleanRest⟩,endsRest⟩
      exact ⟨⟨clean,ends⟩,⟨cleanRest,(pass clean ends).symm.trans endsRest⟩⟩
  · intro ⟨clean,ends,cleanRest⟩ endsRest
    obtain ⟨running,errno⟩ := outer.returns cleanRest ((pass clean ends).symm.trans endsRest)
    refine ⟨running,?_⟩
    rw [errno,after_append,after_append,pass clean ends]
    rfl

theorem loop_dir (w : World) : loop dir (.dir before sub later rest) w =
    if (loop w.handles sub (w.calls before).opens).exited then loop w.handles sub (w.calls before).opens
    else loop dir rest ((loop w.handles sub (w.calls before).opens).calls later) := rfl

theorem loop_ledger (stream : Stream) (running : w.exited = false) (here : dir < w.handles) : ∃ new, Ledger dir stream w (loop dir stream w) new := by
  induction stream generalizing dir w with
  | entry calls rest ih =>
    obtain ⟨new,ledger⟩ := ih (w := w.calls calls) running here
    exact ⟨new,ledger.entry⟩
  | lost => exact ⟨[],lost_ledger⟩
  | null error printed closed => exact null_ledger running error
  | dir before sub later rest ihSub ihRest =>
    obtain ⟨first,inner⟩ : ∃ new, Ledger w.handles sub (w.calls before).opens (loop w.handles sub (w.calls before).opens) new :=
      ihSub running (Nat.lt_succ_self _)
    rw [loop_dir]
    cases exited : (loop w.handles sub (w.calls before).opens).exited with
    | true =>
      rw [if_pos rfl]
      exact ⟨_,inner.lose here exited⟩
    | false =>
      rw [if_neg Bool.false_ne_true]
      have more : w.handles + 1 ≤ (loop w.handles sub (w.calls before).opens).handles := inner.more
      have below : dir < ((loop w.handles sub (w.calls before).opens).calls later).handles := by
        change dir < (loop w.handles sub (w.calls before).opens).handles
        omega
      have runs : ((loop w.handles sub (w.calls before).opens).calls later).exited = false := exited
      obtain ⟨second,outer⟩ := ihRest runs below
      exact ⟨_,inner.nested outer here⟩

-- readdir and fopen do not fail, and no directory ends with an errno that a call has left.
def Proper : Option Stream → Prop
  | none => True
  | some stream => stream.Clean ∧ after 0 stream.effects = 0

theorem handles_exact (argument : Option Stream) : Once (main argument).log ↔ Proper argument := by
  cases argument with
  | none => exact ⟨fun _ => trivial,fun _ => ⟨nofun,nofun⟩⟩
  | some stream =>
    have begun : ∃ new, Ledger 0 stream (World.opens ⟨0,0,[],false⟩) (main (some stream)) new := loop_ledger stream rfl Nat.one_pos
    obtain ⟨new,ledger⟩ := begun
    have all : ∀ handle, .opened handle ∈ Event.opened 0 :: new ↔ Answers 0 1 (main (some stream)).handles handle := by
      intro handle
      have opened : .opened handle ∈ new ↔ 1 ≤ handle ∧ handle < (main (some stream)).handles := ledger.opened handle
      rw [List.mem_cons,opened,Event.opened.injEq]
      rfl
    have log : (main (some stream)).log = .opened 0 :: new := ledger.log
    have settled : Settled 0 1 (main (some stream)).handles new ↔ stream.Clean ∧ after 0 stream.effects = 0 := ledger.settled
    rw [Proper,← settled,log]
    constructor
    · intro ⟨read,once⟩
      refine ⟨fun handle member => read handle (List.mem_cons_of_mem _ member),?_⟩
      intro handle answers
      rw [← once handle ((all handle).mpr answers),List.count_cons_of_ne (by simp)]
    · intro ⟨read,once⟩
      refine ⟨fun handle member => ?_,?_⟩
      · rcases List.mem_cons.mp member with same | member
        · cases same
        · exact read handle member
      · intro handle member
        rw [List.count_cons_of_ne (by simp)]
        exact once handle ((all handle).mp member)

-- A directory that contains one which may not be read: EACCES stays in errno.
def unreadable : Stream := .entry [none,none,some 13,none,none] (.null none [none] [none])

theorem unreadable_twice : (main (some unreadable)).log = [.opened 0,.misread 0,.closed 0,.closed 0] ∧ ¬ ∀ argument, Once (main argument).log := by
  refine ⟨rfl,fun all => ?_⟩
  have read := (all (some unreadable)).1 0
  exact absurd (List.mem_cons_of_mem _ List.mem_cons_self) read

end LinuxCoding.DirStat.Handles
