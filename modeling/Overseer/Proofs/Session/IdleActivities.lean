import Overseer.Proofs.Supervision.Programs

/-!
# Idle activities

An activity that has gone as far as it can at some moment has nothing more to do at that moment:
what it waits for next is later, and when it is asked to go on it leaves the system alone
(`Activity.Quiet`). So everything that callers do at a moment is done when each activity has gone on
once.
-/

namespace Overseer

open Overseer.Tree World

inductive Progress.Leaves {α β : Type} (P : α → Prop) : Progress α β → Prop where
  | pending {rest} (h : P rest) : Leaves P (.pending rest)
  | done {result} : Leaves P (.done result)

theorem Progress.leaves_map {α β γ δ : Type} {P : γ → Prop} {f : α → γ} {g : β → δ}
    {progress : Progress α β} (h : progress.Leaves fun a => P (f a)) :
    (progress.map f g).Leaves P := by
  cases h with
  | pending h => exact .pending h
  | done => exact .done

theorem Progress.Leaves.imp {α β : Type} {P Q : α → Prop} {progress : Progress α β}
    (h : progress.Leaves P) (hPQ : ∀ rest, P rest → Q rest) : progress.Leaves Q := by
  cases h with
  | pending h => exact .pending (hPQ _ h)
  | done => exact .done

namespace Tree.Termination

variable {s : Scene} {now : Instant}

def Quiet (now : Instant) (t : Termination) : Prop :=
  ∃ v, t.vigil = some v ∧ now < v.nextLook ∧ Instant.reached now v.deadline = false

theorem now_signalAll (s : Scene) (pid : Int) (ps : List ProcessRef) (signal : Signal) :
    (signalAll s pid ps signal).now = s.now :=
  (calls_signalAll (k := False) (f := { scene := s }) (g := {}) .refl pid ps signal).carries.now

theorem lt_lookInterval (now : Instant) : now < now + lookInterval :=
  Nat.lt_add_of_pos_right (by decide)

theorem leaves_lookAtKilled (h : s.now = now) (t : Termination) (alive : List ProcessRef)
    (deadline : Option Instant) : (t.lookAtKilled alive deadline s).2.Leaves (Quiet now) := by
  subst h
  unfold lookAtKilled
  split
  · exact .done
  · exact .done
  · split
    · exact .done
    next hr => exact .pending ⟨_, rfl, lt_lookInterval s.now, by simpa using hr⟩

theorem leaves_kill (h : s.now = now) (t : Termination) (alive : List ProcessRef) :
    (t.kill alive s).2.Leaves (Quiet now) := by
  unfold kill
  refine leaves_lookAtKilled (Eq.trans (now_signalAll _ t.pid alive .kill) ?_) t alive _
  exact h

theorem leaves_lookAtAsked (h : s.now = now) (t : Termination) (alive : List ProcessRef)
    (deadline : Option Instant) : (t.lookAtAsked alive deadline s).2.Leaves (Quiet now) := by
  unfold lookAtAsked
  split
  · exact .done
  · exact .done
  · split
    · exact leaves_kill h t _
    next hr =>
      subst h
      exact .pending ⟨_, rfl, lt_lookInterval s.now, by simpa using hr⟩

theorem leaves_start (t : Termination) (s : Scene) : (t.start s).2.Leaves (Quiet s.now) := by
  unfold start
  dsimp only
  split
  · exact .done
  · exact .done
  · refine leaves_lookAtAsked (Eq.trans (now_signalAll _ t.pid _ .term) ?_) t _ _
    rfl

theorem leaves_poll (t : Termination) (s : Scene) : (t.poll s).2.Leaves (Quiet s.now) := by
  unfold poll
  split
  · exact leaves_start t s
  next v hv =>
    unfold keepVigil
    by_cases hr : Instant.reached s.now v.deadline = true
    · rw [if_pos hr]
      cases v.stage with
      | asked => exact leaves_kill rfl t _
      | killed => exact .done
    · rw [if_neg hr]
      by_cases hl : v.nextLook ≤ s.now
      · rw [if_pos hl]
        cases v.stage with
        | asked => exact leaves_lookAtAsked rfl t _ _
        | killed => exact leaves_lookAtKilled rfl t _ _
      · rw [if_neg hl]
        exact .pending ⟨v, hv, Nat.lt_of_not_le hl, by simpa using hr⟩

theorem Quiet.poll {t : Termination} (h : t.Quiet s.now) : t.poll s = (s, .pending t) := by
  obtain ⟨v, hv, hlook, hdeadline⟩ := h
  unfold Termination.poll
  rw [hv]
  dsimp only
  unfold keepVigil
  rw [if_neg (by simp [hdeadline]), if_neg (Nat.not_le.mpr hlook)]

theorem Quiet.lt_wake {t : Termination} (h : t.Quiet now) {moment : Instant}
    (hw : t.wake = some moment) : now < moment := by
  obtain ⟨v, hv, hlook, hdeadline⟩ := h
  unfold wake at hw
  rw [hv] at hw
  rcases Instant.earlier_eq_some_iff.mp hw with ⟨hl, -⟩ | ⟨hd, -⟩
  · obtain rfl := Option.some.inj hl
    exact hlook
  · exact Instant.reached_eq_false_iff.mp hdeadline moment hd

end Tree.Termination

namespace Stopping

variable {f : Fleet} {now : Instant}

def Quiet (now : Instant) (s : Stopping) : Prop :=
  ∀ tree, s.tree = some tree → tree.Quiet now

theorem leaves_awaitEnd (s : Stopping) (f : Fleet) : (s.awaitEnd f).2.Leaves (Quiet now) := by
  unfold awaitEnd
  split
  · refine .pending fun tree ht => ?_
    cases ht
  · exact .done

theorem leaves_poll (s : Stopping) (f : Fleet) : (s.poll f).2.Leaves (Quiet f.now) := by
  unfold poll
  split
  · exact leaves_awaitEnd s f
  next tree ht =>
    have hp := Termination.leaves_poll tree f.scene
    split <;> rename_i hr <;> rw [hr] at hp
    · cases hp with
      | pending hp =>
        refine .pending fun other ho => ?_
        obtain rfl := Option.some.inj ho
        exact hp
    · exact .done
    · exact leaves_awaitEnd s _

theorem leaves_start (process : ProcessId) (f : Fleet) :
    (Stopping.start process f).2.Leaves (Quiet f.now) := by
  unfold Stopping.start
  split
  · exact .done
  · split
    · exact leaves_poll _ f
    · exact .done

theorem Quiet.poll {s : Stopping} (h : s.Quiet f.now) : (s.poll f).1 = f := by
  unfold Stopping.poll
  split
  · unfold awaitEnd
    split <;> rfl
  next tree ht =>
    have hp : tree.poll f.scene = (f.scene, .pending tree) := (h tree ht).poll
    rw [hp]

theorem Quiet.lt_wake {s : Stopping} (h : s.Quiet now) {moment : Instant}
    (hw : s.wake = some moment) : now < moment := by
  obtain ⟨tree, ht, hw⟩ := Option.bind_eq_some_iff.mp hw
  exact (h tree ht).lt_wake hw

end Stopping

namespace BoundedRun

variable {f : Fleet} {now : Instant}

def Quiet (now : Instant) (r : BoundedRun) : Prop :=
  match r.stopping with
  | some stopping => stopping.Quiet now
  | none => Instant.reached now r.deadline = false

theorem leaves_afterStopping (r : BoundedRun) {x : Fleet × Progress Stopping Stopping.Result}
    (h : x.2.Leaves (Stopping.Quiet now)) : (r.afterStopping x).2.Leaves (Quiet now) := by
  obtain ⟨g, stopping | ⟨failure | ⟨⟩⟩⟩ := x
  · cases h with
    | pending h => exact .pending h
  · exact .done
  · exact .done

theorem leaves_poll (r : BoundedRun) (f : Fleet) : (r.poll f).2.Leaves (Quiet f.now) := by
  unfold poll
  split
  · exact leaves_afterStopping r (Stopping.leaves_poll _ f)
  next hs =>
    split
    · exact .done
    · split
      · exact leaves_afterStopping r (Stopping.leaves_start r.process (f.report [_]))
      next hr =>
        refine .pending ?_
        unfold Quiet
        rw [hs]
        simpa using hr

theorem system_unregister (f : Fleet) (standing : ProcessId → Standing) (id : ProcessId) :
    (f.unregister standing id).1.scene.system = f.scene.system := by
  unfold Fleet.unregister
  split <;> rfl

theorem system_giveUp (r : BoundedRun) (f : Fleet) :
    (r.giveUp f).1.scene.system = f.scene.system := by
  unfold giveUp
  cases r.tracked with
  | true => exact system_unregister f _ _
  | false => rfl

theorem system_requireSuccess (command : String) (code : Int) (output : String) (f : Fleet) :
    (requireSuccess command code output f).1.scene.system = f.scene.system := by
  unfold requireSuccess
  split <;> rfl

theorem Quiet.system_poll {r : BoundedRun} (h : r.Quiet f.now) :
    (r.poll f).1.scene.system = f.scene.system := by
  unfold Quiet at h
  unfold poll
  split
  next stopping hs =>
    rw [hs] at h
    have hp := Stopping.Quiet.poll h
    rcases hr : stopping.poll f with ⟨g, rest | ⟨failure | ⟨⟩⟩⟩ <;> rw [hr] at hp
    · exact congrArg (·.scene.system) hp
    · exact congrArg (·.scene.system) hp
    · exact (system_giveUp r g).trans (congrArg (·.scene.system) hp)
  next hs =>
    rw [hs] at h
    split
    · unfold finish
      cases r.check with
      | true => exact system_requireSuccess _ _ _ f
      | false => rfl
    · rw [if_neg (by simp [h])]

theorem Quiet.lt_wake {r : BoundedRun} (h : r.Quiet now) {moment : Instant}
    (hw : r.wake = some moment) : now < moment := by
  unfold Quiet at h
  unfold wake at hw
  split at hw
  next stopping hs =>
    rw [hs] at h
    exact Stopping.Quiet.lt_wake h hw
  next hs =>
    rw [hs] at h
    exact Instant.reached_eq_false_iff.mp h moment hw

end BoundedRun

namespace Teardown

variable {f : Fleet} {now : Instant}

def QuietEntry (now : Instant) : EntryEnd → Prop
  | .ending tree => tree.Quiet now
  | _ => True

def Quiet (now : Instant) (t : Teardown) : Prop := ∀ entry ∈ t.entries, QuietEntry now entry.2

theorem quiet_awaitEnd (entry : Tracked) (f : Fleet) : QuietEntry now (awaitEnd entry f) := by
  unfold awaitEnd
  split
  · trivial
  · trivial

theorem quiet_pollEntry (f : Fleet) (entry : Tracked) (sofar : EntryEnd) :
    QuietEntry f.now (pollEntry f entry sofar).2 := by
  cases sofar with
  | ending tree =>
    have hp := Termination.leaves_poll tree f.scene
    rw [pollEntry]
    split <;> rename_i hr <;> rw [hr] at hp
    · cases hp with
      | pending hp => exact hp
    · trivial
    · exact quiet_awaitEnd entry _
  | waiting => exact quiet_awaitEnd entry f
  | ended failure => trivial

theorem quiet_pollEntries (entries : List (Tracked × EntryEnd)) (f : Fleet) :
    ∀ entry ∈ (pollEntries f entries).2, QuietEntry f.now entry.2 := by
  induction entries generalizing f with
  | nil =>
    intro entry he
    cases he
  | cons first entries ih =>
    have hnow : (pollEntry f first.1 first.2).1.now = f.now :=
      (calls_pollEntry (k := False) .refl first.1 first.2).carries.now
    intro entry he
    rcases List.mem_cons.mp he with rfl | he
    · exact quiet_pollEntry f first.1 first.2
    · exact hnow ▸ ih _ entry he

theorem leaves_poll (t : Teardown) (f : Fleet) : (t.poll f).2.Leaves (Quiet f.now) := by
  have hp := quiet_pollEntries t.entries f
  unfold poll
  dsimp only
  split
  · exact .done
  · exact .pending hp

theorem fst_pollEntry {entry : Tracked} {sofar : EntryEnd} (h : QuietEntry f.now sofar) :
    (pollEntry f entry sofar).1 = f := by
  cases sofar with
  | ending tree =>
    have hp : tree.poll f.scene = (f.scene, .pending tree) := Termination.Quiet.poll h
    rw [pollEntry, hp]
  | waiting => rfl
  | ended failure => rfl

theorem fst_pollEntries {entries : List (Tracked × EntryEnd)}
    (h : ∀ entry ∈ entries, QuietEntry f.now entry.2) : (pollEntries f entries).1 = f := by
  induction entries with
  | nil => rfl
  | cons first entries ih =>
    have hfirst : (pollEntry f first.1 first.2).1 = f := fst_pollEntry (h first List.mem_cons_self)
    have hstep : (pollEntries f (first :: entries)).1 =
        (pollEntries (pollEntry f first.1 first.2).1 entries).1 := rfl
    rw [hstep, hfirst]
    exact ih fun entry he => h entry (List.mem_cons_of_mem first he)

theorem Quiet.system_poll {t : Teardown} (h : t.Quiet f.now) :
    (t.poll f).1.scene.system = f.scene.system := by
  have hp := fst_pollEntries h
  unfold poll
  dsimp only
  split
  · exact congrArg (·.scene.system) hp
  · exact congrArg (·.scene.system) hp

theorem Quiet.lt_wake {t : Teardown} (h : t.Quiet now) {moment : Instant}
    (hw : t.wake = some moment) : now < moment := by
  rcases Instant.foldl_earlier_mem hw with hn | ⟨entry, he, hw⟩
  · cases hn
  · have hq := h entry he
    unfold wakeEntry at hw
    split at hw
    next tree ht =>
      rw [ht] at hq
      exact Termination.Quiet.lt_wake hq hw
    · cases hw

end Teardown

namespace Session

open Timeline

variable {s : Session} {now : Instant}

def Activity.Quiet (now : Instant) : Activity → Prop
  | .line _ _ w => Instant.reached now w.deadline = false
  | .ending _ _ => True
  | .tree t => t.Quiet now
  | .stopping x => x.Quiet now
  | .run r => r.Quiet now
  | .teardown _ t => t.Quiet now

theorem leaves_pollWait (w : LineWait) (now : Instant) (log : OutputLog) :
    (w.poll now log).2.2.Leaves fun rest => Instant.reached now rest.deadline = false := by
  cases hp : (w.poll now log).2.2 with
  | pending rest =>
    obtain ⟨rfl, hr, -⟩ := LineWait.pending_poll hp
    exact .pending hr
  | done result => exact .done

theorem leaves_pollLine (process : ProcessId) (report : LineReport) (w : LineWait) (s : Session) :
    (pollLine process report w s).2.Leaves (Activity.Quiet s.now) :=
  Progress.leaves_map (leaves_pollWait w s.now (s.fleet.log process))

theorem leaves_pollEnd (process : ProcessId) (report : EndReport) (s : Session) :
    (pollEnd process report s).2.Leaves (Activity.Quiet s.now) := by
  unfold pollEnd
  split
  · exact .pending trivial
  · exact .done

theorem leaves_pollTree (tree : Termination) (s : Session) :
    (pollTree tree s).2.Leaves (Activity.Quiet s.now) :=
  Progress.leaves_map (Termination.leaves_poll tree s.fleet.scene)

theorem leaves_poll (a : Activity) (s : Session) : (poll a s).2.Leaves (Activity.Quiet s.now) := by
  cases a with
  | line process report w => exact leaves_pollLine process report w s
  | ending process report => exact leaves_pollEnd process report s
  | tree tree => exact leaves_pollTree tree s
  | stopping stopping => exact Progress.leaves_map (Stopping.leaves_poll stopping s.fleet)
  | run run => exact Progress.leaves_map (BoundedRun.leaves_poll run s.fleet)
  | teardown leaving teardown =>
    exact Progress.leaves_map (Teardown.leaves_poll teardown s.fleet)

/-- An activity that has gone as far as it can does nothing to the system. -/
theorem Activity.Quiet.system_poll {a : Activity} (h : a.Quiet s.now) :
    (poll a s).1.fleet.scene.system = s.fleet.scene.system := by
  cases a with
  | line process report w => rfl
  | ending process report =>
    unfold poll pollEnd
    dsimp only
    split
    · rfl
    · cases report with
      | output => rfl
      | code => rfl
      | checkedOutput command => exact BoundedRun.system_requireSuccess command _ _ s.fleet
  | tree tree =>
    have hp : tree.poll s.fleet.scene = (s.fleet.scene, .pending tree) := Termination.Quiet.poll h
    change (tree.poll s.fleet.scene).1.system = _
    rw [hp]
  | stopping stopping => exact congrArg (·.scene.system) (Stopping.Quiet.poll h)
  | run run => exact BoundedRun.Quiet.system_poll h
  | teardown leaving teardown => exact Teardown.Quiet.system_poll h

theorem Activity.Quiet.lt_wake {a : Activity} (h : a.Quiet now) {moment : Instant}
    (hw : wake a = some moment) : now < moment := by
  cases a with
  | line process report w => exact Instant.reached_eq_false_iff.mp h moment hw
  | ending process report => cases hw
  | tree tree => exact Termination.Quiet.lt_wake h hw
  | stopping stopping => exact Stopping.Quiet.lt_wake h hw
  | run run => exact BoundedRun.Quiet.lt_wake h hw
  | teardown leaving teardown => exact Teardown.Quiet.lt_wake h hw

theorem machinery_punctual : machinery.Punctual where
  now_advance _ _ := rfl
  now_deliver s := (Fleet.frame_readOutputs s.fleet).now
  now_complete s := (Fleet.frame_watchEnds s.fleet).now
  now_start peers command s :=
    (calls_start (k := True) (f := s.fleet) trivial .refl peers command).carries.now
  now_poll a s := (calls_poll (k := False) (f := s.fleet) .refl a).carries.now
  now_cancel a s := (calls_cancel (k := False) (f := s.fleet) .refl a).carries.now
  wake_poll a s rest h moment hw := by
    have hl := leaves_poll a s
    rw [show (poll a s).2 = .pending rest from h] at hl
    cases hl with
    | pending hl => exact Activity.Quiet.lt_wake hl hw

end Session

end Overseer
