import Overseer.Proofs.Number.Limits
import Overseer.Proofs.Timeline.TaskTurns
import Overseer.Proofs.Tree.SignalAttempts

/-!
# The course of ending a tree

A task that ends a tree makes attempts to signal in one turn or two (`Session.bouts`): the members
are asked to end, and those that are left at the deadline are killed. Between the turns it knows no
more of the members than who was alive at the last look, which was in one of its turns
(`LastLook`). What it has done and what it waits for is its `Course`, whatever else goes on in the
session.
-/

namespace Overseer

open Overseer.Tree Number World Timeline

namespace Session

abbrev system (s : Session) : System := s.fleet.scene.system

/-- The turns of a task in which it made attempts to signal: the system before and after. -/
def bouts (turns : List (Session × Session)) : List (System × System) :=
  (turns.map fun turn => (turn.1.system, turn.2.system)).filter fun bout =>
    bout.1.signals.size < bout.2.signals.size

theorem bouts_append (turns more : List (Session × Session)) :
    bouts (turns ++ more) = bouts turns ++ bouts more := by
  simp [bouts]

theorem bouts_of_quiet {a b : Session} (h : b.system = a.system) : bouts [(a, b)] = [] := by
  simp [bouts, h]

theorem bouts_append_of_quiet (turns : List (Session × Session)) {a b : Session}
    (h : b.system = a.system) : bouts (turns ++ [(a, b)]) = bouts turns := by
  rw [bouts_append, bouts_of_quiet h, List.append_nil]

theorem bouts_of_sendAll {a b : Session} {xs : List Sending} (hne : xs ≠ [])
    (h : b.system = a.system.sendAll xs) : bouts [(a, b)] = [(a.system, a.system.sendAll xs)] := by
  have hsize : a.system.signals.size < b.system.signals.size := by
    have hpos := List.length_pos_of_ne_nil hne
    rw [h, ← Array.length_toList, ← Array.length_toList, System.signals_sendAll]
    simpa using hpos
  simp [bouts, ← h, hsize]

end Session

namespace Tree

theorem volley_ne_nil (windows : Bool) (pid : Int) {ps : List ProcessRef} (h : ps ≠ [])
    (signal : Signal) : volley windows pid ps signal ≠ [] := by
  simp [volley, h]

def afterAsking (w : System) (pid : Int) (found : List ProcessRef) : System :=
  w.sendAll (volley w.windows pid found .term)

/-- Some members that are left, in the order in which they were found: who is missing is dead. -/
structure Left (w : System) (found left : List ProcessRef) : Prop where
  ne_nil : left ≠ []
  sublist : left.Sublist found
  alive : ∀ p ∈ found, w.alive p = true → p ∈ left

/-- The members of a tree were asked to end, and those that were left at the deadline were killed.
-/
inductive Forced (w : System) (pid : Int) (found : List ProcessRef) (deadline : Option Instant) :
    List (System × System) → Prop where
  | later {x : System} {left : List ProcessRef} : deadline = some x.now → Left x found left →
      Forced w pid found deadline
        [(w, afterAsking w pid found), (x, x.sendAll (volley w.windows pid left .kill))]
  | atOnce {left : List ProcessRef} : deadline = some w.now →
    Left (afterAsking w pid found) found left →
      Forced w pid found deadline
        [(w, (afterAsking w pid found).sendAll (volley w.windows pid left .kill))]

/-- The members of a tree were asked to end, and those that were left may have been killed. -/
def Attempted (w : System) (pid : Int) (found : List ProcessRef) (deadline : Option Instant)
    (bouts : List (System × System)) : Prop :=
  bouts = [(w, afterAsking w pid found)] ∨ Forced w pid found deadline bouts

/-- Those that count as alive are those that were alive at the last look, which was in one of the
turns. -/
structure LastLook (w : System) (found alive : List ProcessRef)
    (turns : List (Session × Session)) (since : Instant) (u : System) : Prop where
  ne_nil : alive ≠ []
  seen : ∃ turn ∈ turns, turn.2.now = since ∧ alive = found.filter turn.2.system.alive ∧
    w.Evolves turn.2.system ∧ turn.2.system.Evolves u

/-- What the ending of a tree has done in its turns so far, and what it waits for. -/
inductive Course (w : System) (tree : Termination) (found : List ProcessRef)
    (turns : List (Session × Session)) (u : System) : Task Session.Activity Session.Result → Prop
    where
  | asked {v : Vigil} {since : Instant} : v.stage = .asked →
      Session.bouts turns = [(w, afterAsking w tree.pid found)] →
      v.deadline = tree.termLimit.deadline w.now → (∀ d, v.deadline = some d → u.now ≤ d) →
      LastLook w found v.alive turns since u →
      Course w tree found turns u (.pending (.act (.tree { tree with vigil := some v })))
  | killed {v : Vigil} {since : Instant} : v.stage = .killed →
      Forced w tree.pid found (tree.termLimit.deadline w.now) (Session.bouts turns) →
      Instant.reached since v.deadline = false → v.nextLook = since + lookInterval →
      u.now ≤ v.nextLook → LastLook w found v.alive turns since u →
      Course w tree found turns u (.pending (.act (.tree { tree with vigil := some v })))
  | gone {time : Instant} :
      Attempted w tree.pid found (tree.termLimit.deadline w.now) (Session.bouts turns) →
      (∀ p ∈ found, u.Gone p.serial) →
      Course w tree found turns u (.ended time (.result (.ok .nothing)))
  | left {time since : Instant} {alive : List ProcessRef} :
      Forced w tree.pid found (tree.termLimit.deadline w.now) (Session.bouts turns) →
      since ≤ time → time ≤ since + lookInterval → LastLook w found alive turns since u →
      Course w tree found turns u
        (.ended time (.result (.error (Termination.leftover tree.pid alive.length))))
  | cancelled {time : Instant} :
      Attempted w tree.pid found (tree.termLimit.deadline w.now) (Session.bouts turns) →
      Course w tree found turns u (.ended time .cancelled)

section

variable {w a b u : System} {tree : Termination} {found alive : List ProcessRef}
  {turns : List (Session × Session)} {since : Instant}

structure Told (w : System) (found : List ProcessRef) : Prop where
  sound : w.Sound
  known : ∀ p ∈ found, p.obstacles.status = none ∧ w.Known p.serial

theorem Told.evolves (h : Told a found) (he : a.Evolves b) : Told b found :=
  ⟨he.sound h.sound, fun p hp => ⟨(h.known p hp).1, he.known (h.known p hp).2⟩⟩

theorem Told.alive_before (h : Told a found) (he : a.Evolves b) {p : ProcessRef} (hp : p ∈ found)
    (ha : b.alive p = true) : a.alive p = true :=
  he.alive h.sound (h.known p hp).2 ha

theorem Told.filter_filter (h : Told a found) (he : a.Evolves b) :
    (found.filter a.alive).filter b.alive = found.filter b.alive := by
  rw [List.filter_filter]
  refine List.filter_congr fun p hp => ?_
  cases hb : b.alive p with
  | false => rfl
  | true => rw [h.alive_before he hp hb, Bool.and_self]

theorem Told.left (h : Told a found) (he : a.Evolves b) (hne : found.filter a.alive ≠ []) :
    Left b found (found.filter a.alive) where
  ne_nil := hne
  sublist := List.filter_sublist
  alive _ hp hb := List.mem_filter.mpr ⟨hp, h.alive_before he hp hb⟩

theorem Told.gone (h : Told a found) (hnone : found.filter a.alive = []) :
    ∀ p ∈ found, a.Gone p.serial := by
  intro p hp
  have hdead : a.alive p = false := by simpa using List.filter_eq_nil_iff.mp hnone p hp
  exact (h.known p hp).2.gone h.sound (System.alive_eq_false_iff.mp hdead)

theorem LastLook.evolves (h : LastLook w found alive turns since a) (he : a.Evolves b) :
    LastLook w found alive turns since b where
  ne_nil := h.ne_nil
  seen := by
    obtain ⟨turn, hturn, htime, halive, hw, ha⟩ := h.seen
    exact ⟨turn, hturn, htime, halive, hw, ha.trans he⟩

theorem LastLook.begun (h : LastLook w found alive turns since u) : w.Evolves u := by
  obtain ⟨turn, -, -, -, hw, hu⟩ := h.seen
  exact hw.trans hu

theorem LastLook.append (h : LastLook w found alive turns since u)
    (more : List (Session × Session)) : LastLook w found alive (turns ++ more) since u where
  ne_nil := h.ne_nil
  seen := by
    obtain ⟨turn, hturn, hrest⟩ := h.seen
    exact ⟨turn, List.mem_append_left more hturn, hrest⟩

theorem LastLook.now {turn : Session × Session} (hne : found.filter turn.2.system.alive ≠ [])
    (hw : w.Evolves turn.2.system) :
    LastLook w found (found.filter turn.2.system.alive) (turns ++ [turn]) turn.2.now turn.2.system
    where
  ne_nil := hne
  seen := ⟨turn, List.mem_append_right turns List.mem_cons_self, rfl, rfl, hw, .refl _⟩

theorem LastLook.told (h : LastLook w found alive turns since u) (ht : Told w found) :
    (∀ p ∈ alive, p.obstacles.status = none) ∧ alive.filter u.alive = found.filter u.alive ∧
      Left u found alive := by
  have hne := h.ne_nil
  obtain ⟨turn, -, -, rfl, hw, hu⟩ := h.seen
  have hseen := ht.evolves hw
  exact ⟨fun p hp => (ht.known p (List.mem_filter.mp hp).1).1, hseen.filter_filter hu,
    hseen.left hu hne⟩

def taskOf (now : Instant) (progress : Progress Termination Termination.Result) :
    Task Session.Activity Session.Result :=
  .ofProgress now (progress.map .tree (·.map fun _ => .nothing))

theorem Course.of_afterKill {turn : Session × Session} {vigil : Option Vigil}
    {deadline : Option Instant} {progress : Progress Termination Termination.Result}
    (hforced : Forced w tree.pid found (tree.termLimit.deadline w.now)
      (Session.bouts (turns ++ [turn])))
    (ht : Told w found) (hw : w.Evolves turn.2.system)
    (hfilter : alive.filter turn.2.system.alive = found.filter turn.2.system.alive)
    (h : Termination.AfterKill { tree with vigil } alive deadline turn.2.system progress) :
    Course w tree found (turns ++ [turn]) turn.2.system (taskOf turn.2.now progress) := by
  cases h with
  | gone hnone => exact .gone (.inr hforced) ((ht.evolves hw).gone (hfilter.symm.trans hnone))
  | left hne hr =>
    rw [hfilter] at hne ⊢
    exact .left hforced (Nat.le_refl _) (Nat.le_add_right _ _) (.now hne hw)
  | wait hne hr =>
    rw [hfilter] at hne ⊢
    exact .killed rfl hforced hr rfl (Nat.le_add_right _ _) (.now hne hw)

theorem Course.evolves {task : Task Session.Activity Session.Result}
    (h : Course w tree found turns a task) (he : a.Evolves b) (hnow : b.now = a.now) :
    Course w tree found turns b task := by
  cases h with
  | asked hs hb hd hle hlook => exact .asked hs hb hd (hnow ▸ hle) (hlook.evolves he)
  | killed hs hf hr hn hle hlook => exact .killed hs hf hr hn (hnow ▸ hle) (hlook.evolves he)
  | gone hb hgone => exact .gone hb fun p hp => he.gone (hgone p hp)
  | left hf hle hge hlook => exact .left hf hle hge (hlook.evolves he)
  | cancelled hb => exact .cancelled hb

theorem Course.cancel {errand : Errand Session.Activity}
    (h : Course w tree found turns u (.pending errand))
    (time : Instant) : Course w tree found turns u (.ended time .cancelled) := by
  cases h with
  | asked hs hb hd hle hlook => exact .cancelled (.inl hb)
  | killed hs hf hr hn hle hlook => exact .cancelled (.inr hf)

theorem Course.attempted {task : Task Session.Activity Session.Result}
    (h : Course w tree found turns u task) :
    Attempted w tree.pid found (tree.termLimit.deadline w.now) (Session.bouts turns) := by
  cases h with
  | asked _ hb => exact .inl hb
  | killed _ hf => exact .inr hf
  | gone hb _ => exact hb
  | left hf => exact .inr hf
  | cancelled hb => exact hb

theorem Course.waits {errand : Errand Session.Activity} (ht : Told w found)
    (h : Course w tree found turns u (.pending errand)) :
    ∃ v, errand = .act (.tree { tree with vigil := some v }) ∧
      ∀ p ∈ v.alive, p.obstacles.status = none := by
  cases h with
  | asked hs hb hd hle hlook => exact ⟨_, rfl, (hlook.told ht).1⟩
  | killed hs hf hr hn hle hlook => exact ⟨_, rfl, (hlook.told ht).1⟩

theorem Course.advance {task : Task Session.Activity Session.Result} {moment : Instant}
    (h : Course w tree found turns u task)
    (hwake : ∀ next, task.wake Session.wake = some next → moment ≤ next) :
    Course w tree found turns (u.advance moment) task := by
  have he := System.evolves_advance u moment
  cases h with
  | asked hs hb hd hle hlook =>
    refine .asked hs hb hd (fun d hdue => ?_) (hlook.evolves he)
    obtain ⟨next, hnext, hw⟩ := Instant.earlier_le_right hdue
    exact Nat.le_trans (hwake next hw) hnext
  | @killed v since hs hf hr hn hle hlook =>
    refine .killed hs hf hr hn ?_ (hlook.evolves he)
    obtain ⟨next, hnext, hw⟩ := Instant.earlier_le_left (b := v.deadline) rfl
    exact Nat.le_trans (hwake next hw) hnext
  | gone hb hgone => exact .gone hb fun p hp => he.gone (hgone p hp)
  | left hf hle hge hlook => exact .left hf hle hge (hlook.evolves he)
  | cancelled hb => exact .cancelled hb

/-- The members that were asked to end are looked at before the deadline. -/
theorem Course.of_afterAsk {turn : Session × Session} {v : Vigil}
    {progress : Progress Termination Termination.Result}
    (hb : Session.bouts turns = [(w, afterAsking w tree.pid found)])
    (hd : v.deadline = tree.termLimit.deadline w.now)
    (hr : Instant.reached turn.1.system.now v.deadline = false)
    (ht : Told w found) (hw : w.Evolves turn.2.system)
    (hfilter : alive.filter turn.1.system.alive = found.filter turn.1.system.alive)
    (h : Termination.AfterAsk { tree with vigil := some v } alive v.deadline turn.1.system
      turn.2.system progress) :
    Course w tree found (turns ++ [turn]) turn.2.system (taskOf turn.2.now progress) := by
  cases h with
  | gone hsame hnone =>
    rw [hfilter, ← hsame] at hnone
    exact .gone (.inl ((Session.bouts_append_of_quiet turns hsame).trans hb))
      ((ht.evolves hw).gone hnone)
  | kill _ hreached =>
    rw [hr] at hreached
    cases hreached
  | wait hsame hne =>
    rw [hfilter, ← hsame] at hne ⊢
    refine .asked rfl ((Session.bouts_append_of_quiet turns hsame).trans hb) hd (fun d hdue => ?_)
      (.now hne hw)
    rw [hsame]
    exact Nat.le_of_lt (Instant.reached_eq_false_iff.mp hr d hdue)

/-- The task goes on: what comes of its wait is what its course comes to. -/
theorem Course.goOn (turn : Session × Session) {v : Vigil}
    {progress : Progress Termination Termination.Result} (ht : Told w found)
    (hages : w.Ages turn.1.system)
    (h : Course w tree found turns turn.1.system
      (.pending (.act (.tree { tree with vigil := some v }))))
    (hsystem : turn.1.system.Evolves turn.2.system)
    (hs : Termination.Sequel { tree with vigil := some v } v turn.1.system turn.2.system progress) :
    Course w tree found (turns ++ [turn]) turn.2.system (taskOf turn.2.now progress) := by
  have hquiet : turn.2.system = turn.1.system →
      Session.bouts (turns ++ [turn]) = Session.bouts turns := Session.bouts_append_of_quiet turns
  cases h with
  | asked hstage hb hd hle hlook =>
    obtain ⟨-, hfilter, hleft⟩ := hlook.told ht
    have hafter := (hlook.evolves hsystem).told ht
    cases hs with
    | kill _ hreached hkills =>
      -- the clock never jumps beyond the deadline, so the deadline is now
      obtain ⟨d, hdue, hpast⟩ := Instant.reached_eq_true_iff.mp hreached
      have hnow : turn.1.system.now = d := Nat.le_antisymm (hle d hdue) hpast
      refine .of_afterKill ?_ ht (hlook.begun.trans hsystem) hafter.2.1 hkills.look
      rw [Session.bouts_append, hb, Session.bouts_of_sendAll (volley_ne_nil _ _ hlook.ne_nil .kill)
        hkills.system, hages.windows]
      exact .later (hd.symm.trans (hdue.trans (congrArg some hnow.symm))) hleft
    | left _ hother => cases hstage.symm.trans hother
    | lookAsked _ hr hask => exact .of_afterAsk hb hd hr ht (hlook.begun.trans hsystem) hfilter hask
    | lookKilled _ hother => cases hstage.symm.trans hother
    | wait hsame =>
      refine .asked hstage ((hquiet hsame).trans hb) hd (fun d hdue => ?_)
        ((hlook.evolves hsystem).append [turn])
      rw [hsame]
      exact hle d hdue
  | killed hstage hf hr hn hle hlook =>
    cases hs with
    | kill hother => cases hstage.symm.trans hother
    | left hsame _ hreached =>
      -- nobody is looked at again: those who count as alive are those of the last look
      obtain ⟨d, hdue, hpast⟩ := Instant.reached_eq_true_iff.mp hreached
      have hsince := Instant.reached_eq_false_iff.mp hr d hdue
      have hnow : turn.2.now = turn.1.system.now := congrArg System.now hsame
      refine .left ((hquiet hsame).symm ▸ hf) ?_ ?_ ((hlook.evolves hsystem).append [turn])
      · rw [hnow]
        exact Nat.le_trans (Nat.le_of_lt hsince) hpast
      · rw [hnow, ← hn]
        exact hle
    | lookAsked hother => cases hstage.symm.trans hother
    | lookKilled hsame _ _ hkilled =>
      have hafter := (hlook.evolves hsystem).told ht
      rw [← hsame] at hkilled
      exact .of_afterKill ((hquiet hsame).symm ▸ hf) ht (hlook.begun.trans hsystem) hafter.2.1
        hkilled
    | wait hsame =>
      refine .killed hstage ((hquiet hsame).symm ▸ hf) hr hn ?_
        ((hlook.evolves hsystem).append [turn])
      rw [hsame]
      exact hle

/-- A course begins when the members are asked to end. A limit that is not positive has run out by
then. -/
theorem Course.start (turn : Session × Session) {progress : Progress Termination Termination.Result}
    (ht : Told turn.1.system found) (hsystem : turn.1.system.Evolves turn.2.system)
    (h : Termination.AfterAsk tree found (tree.termLimit.deadline turn.1.system.now)
      (afterAsking turn.1.system tree.pid found) turn.2.system progress) (hne : found ≠ []) :
    Course turn.1.system tree found [turn] turn.2.system (taskOf turn.2.now progress) := by
  have hvolley := volley_ne_nil turn.1.system.windows tree.pid hne .term
  have hnow : (afterAsking turn.1.system tree.pid found).now = turn.1.system.now :=
    System.now_sendAll _ _
  have hasked : turn.1.system.Evolves (afterAsking turn.1.system tree.pid found) :=
    System.evolves_sendAll _ _
  cases h with
  | gone hsame hnone =>
    rw [← hsame] at hnone
    exact .gone (.inl (Session.bouts_of_sendAll hvolley hsame)) ((ht.evolves hsystem).gone hnone)
  | kill hleft hreached hkills =>
    obtain ⟨d, hdue, hpast⟩ := Instant.reached_eq_true_iff.mp hreached
    -- no deadline is before its beginning, so this one is its beginning
    have hd : tree.termLimit.deadline turn.1.system.now = some turn.1.system.now := by
      have hle := Number.Seconds.le_deadline hdue
      rw [hdue, Nat.le_antisymm hle (hnow ▸ hpast)]
    have hkill : afterAsking turn.1.system tree.pid found |>.Evolves turn.2.system := by
      rw [hkills.system]
      exact System.evolves_sendAll _ _
    change Course _ tree found ([] ++ [turn]) _ _
    refine .of_afterKill ?_ ht hsystem ((ht.evolves hasked).filter_filter hkill) hkills.look
    have hwindows : (afterAsking turn.1.system tree.pid found).windows = turn.1.system.windows :=
      (System.ages_sendAll _ _).windows
    have hboth := hkills.system
    rw [hwindows, afterAsking, ← System.sendAll_append] at hboth
    rw [List.nil_append, Session.bouts_of_sendAll (by simp [hvolley]) hboth, System.sendAll_append]
    exact .atOnce hd ((ht.evolves hasked).left (.refl _) hleft)
  | wait hsame hleft hr =>
    rw [← hsame] at hleft hr ⊢
    have hlook : LastLook turn.1.system found (found.filter turn.2.system.alive) ([] ++ [turn])
        turn.2.now turn.2.system := .now hleft hsystem
    refine Course.asked rfl (Session.bouts_of_sendAll hvolley hsame) rfl (fun d hdue => ?_) hlook
    exact Nat.le_of_lt (Instant.reached_eq_false_iff.mp hr d hdue)

end

end Tree

namespace Session

variable {w : System} {tree : Termination} {found : List ProcessRef}

theorem upheld_course (ht : Told w found) (id : TaskId) :
    Upheld machinery id fun turns t task =>
      w.Ages t.state.system ∧ Course w tree found turns t.state.system task where
  still hlater hnow h :=
    ⟨h.1.trans (System.ongoing_ages.later hlater), h.2.evolves (evolves_later hlater) hnow⟩
  tick {turns t task moment} _ htask hnext h := by
    refine ⟨h.1.trans (System.ages_advance _ _), h.2.advance fun next hwake => ?_⟩
    exact nextMoment_le_wake (m := machinery) hnext htask hwake
  cancel h := ⟨h.1, h.2.cancel _⟩
  poll {turns t errand} htask h := by
    obtain ⟨hages, hcourse⟩ := h
    have hlater : Later machinery t (pollTask machinery t id) := .poll id .refl
    refine ⟨hages.trans (System.ongoing_ages.later hlater), ?_⟩
    have hsystem := evolves_later hlater
    have hstate := (pollTask_pending (m := machinery) htask).1
    obtain ⟨v, rfl, hstatus⟩ := hcourse.waits ht
    rw [hstate] at hsystem ⊢
    exact .goOn (t.state, _) ht hages hcourse hsystem
      (Termination.sequel_keepVigil hstatus _ t.state.fleet.scene)

def ending (pid : Int) (termLimit killLimit : Option Seconds) : Termination :=
  { pid, termLimit := termLimit.getD Termination.usualTermLimit
    killLimit := killLimit.getD Termination.usualKillLimit }

/-- A call that finds nobody is over at once and leaves the system alone. -/
theorem launch_of_none {before : Timeline Session Activity Result} {step : Step Command} {pid : Int}
    {termLimit killLimit : Option Seconds}
    (hstep : step.command? = some (.killTree pid termLimit killLimit))
    (hm : ∀ p ps, (members before.state.system pid).1 ≠ .ok (p :: ps)) :
    (launch machinery before step).state.system = before.state.system ∧
      ∃ time, (launch machinery before step).tasks[before.tasks.size]? = some (.ended time
        (.result ((members before.state.system pid).1.map fun _ => .nothing))) := by
  obtain ⟨hstate, htask, -⟩ := launch_command (m := machinery) hstep before
  obtain ⟨hsame, hdone⟩ :=
    Termination.start_of_none (ending pid termLimit killLimit) (s := before.state.fleet.scene) hm
  have hover : (machinery.start before.activities (.killTree pid termLimit killLimit)
      before.state).2 =
        .done ((members before.state.system pid).1.map fun _ => Answer.nothing) := by
    have hmap : ∀ r : Except Failure (List ProcessRef),
        (r.map fun _ => ()).map (fun _ => Answer.nothing) = r.map fun _ => .nothing := by
      intro r
      cases r <;> rfl
    exact (congrArg (·.map Activity.tree (·.map fun _ => Answer.nothing)) hdone).trans
      (congrArg Progress.done (hmap _))
  rw [hover] at htask
  exact ⟨(congrArg system hstate).trans hsame, _, htask⟩

/-- The course of a call that ends a tree, from its beginning to the end of a play. -/
theorem course_play {s : Session} {w : System} {others : List Birth}
    {before : Timeline Session Activity Result} {step : Step Command} {pid : Int}
    {termLimit killLimit : Option Seconds}
    (hbefore : Later machinery { state := s.afresh w others } before)
    (hstep : step.command? = some (.killTree pid termLimit killLimit))
    (hm : (members before.state.system pid).1 = .ok found) (hne : found ≠ [])
    (moves : List (Move Command)) :
    let after := play machinery (move machinery before (.begin step)) moves
    ∃ task, after.tasks[before.tasks.size]? = some task ∧ Told before.state.system found ∧
      Course before.state.system (ending pid termLimit killLimit) found
        (turnsOfStep machinery before step moves) after.state.system task := by
  intro after
  have hwatch := Watch.of_members (sound_later hbefore) hm
  have ht : Told before.state.system found := ⟨hwatch.sound, hwatch.known⟩
  have hlater : Later machinery before (launch machinery before step) := .launch step .refl
  have hsystem := evolves_later hlater
  obtain ⟨hstate, htask, -⟩ := launch_command (m := machinery) hstep before
  have hask := Termination.afterAsk_start (t := ending pid termLimit killLimit)
    (s := before.state.fleet.scene) hm hne fun p hp => (ht.known p hp).1
  have hbegun : Holding (fun turns t task => before.state.system.Ages t.state.system ∧
      Course before.state.system (ending pid termLimit killLimit) found turns t.state.system task)
      before.tasks.size [(before.state, (launch machinery before step).state)]
      (launch machinery before step) := by
    refine ⟨_, htask, System.ongoing_ages.later hlater, ?_⟩
    rw [hstate] at hsystem ⊢
    exact .start (before.state, _) ht hsystem hask hne
  obtain ⟨task, hafter, -, hcourse⟩ :=
    (upheld_course ht before.tasks.size).step machinery_punctual hbegun moves
  exact ⟨task, hafter, ht, hcourse⟩

theorem course_or_nobody {s : Session} {w : System} {others : List Birth}
    {before : Timeline Session Activity Result} {step : Step Command} {pid : Int}
    {termLimit killLimit : Option Seconds}
    (hbefore : Later machinery { state := s.afresh w others } before)
    (hstep : step.command? = some (.killTree pid termLimit killLimit))
    (moves : List (Move Command)) :
    let after := play machinery (move machinery before (.begin step)) moves
    let turns := turnsOfStep machinery before step moves
    (∃ p ps task, (members before.state.system pid).1 = .ok (p :: ps) ∧
      after.tasks[before.tasks.size]? = some task ∧ Told before.state.system (p :: ps) ∧
      Course before.state.system (ending pid termLimit killLimit) (p :: ps) turns
        after.state.system task) ∨
    ((∀ p ps, (members before.state.system pid).1 ≠ .ok (p :: ps)) ∧ bouts turns = [] ∧
      ∃ time, after.tasks[before.tasks.size]? = some
        (.ended time (.result ((members before.state.system pid).1.map fun _ => .nothing)))) := by
  intro after turns
  by_cases hsome : ∃ p ps, (members before.state.system pid).1 = .ok (p :: ps)
  · obtain ⟨p, ps, hm⟩ := hsome
    obtain ⟨task, hcourse⟩ := course_play hbefore hstep hm (List.cons_ne_nil p ps) moves
    exact .inl ⟨p, ps, task, hm, hcourse⟩
  · have hnobody : ∀ p ps, (members before.state.system pid).1 ≠ .ok (p :: ps) :=
      fun p ps hm => hsome ⟨p, ps, hm⟩
    obtain ⟨hsame, time, hended⟩ := launch_of_none hstep hnobody
    have hturns := turnsOfStep_of_ended machinery_punctual hended rfl moves
    exact .inr ⟨hnobody, (congrArg bouts hturns).trans (bouts_of_quiet hsame), time,
      ended_play (ended_settle hended) moves⟩

/-- What a call that ends a tree attempts does not depend on what comes of its attempts. All members
that it finds are asked to end when it begins. Either nothing else is attempted, and at the latest
at the deadline the call is over; or at the deadline those that are left are killed. -/
theorem killTree_schedule {s : Session} {w : System} {others : List Birth}
    {before : Timeline Session Activity Result} {step : Step Command} {pid : Int}
    {termLimit killLimit : Option Seconds}
    (hbefore : Later machinery { state := s.afresh w others } before)
    (hstep : step.command? = some (.killTree pid termLimit killLimit))
    (hm : (members before.state.system pid).1 = .ok found) (hne : found ≠ [])
    (moves : List (Move Command)) :
    let after := play machinery (move machinery before (.begin step)) moves
    let attempted := bouts (turnsOfStep machinery before step moves)
    let deadline := (termLimit.getD Termination.usualTermLimit).deadline before.state.now
    ∃ task, after.tasks[before.tasks.size]? = some task ∧
      (attempted = [(before.state.system, afterAsking before.state.system pid found)] ∧
          ((∃ time, task = .ended time (.result (.ok .nothing))) ∨
            (∃ time, task = .ended time .cancelled) ∨
            task.isPending ∧ ∀ d, deadline = some d → after.state.now < d) ∨
        Forced before.state.system pid found deadline attempted) := by
  intro after attempted deadline
  obtain ⟨task, htask, -, hcourse⟩ := course_play hbefore hstep hm hne moves
  refine ⟨task, htask, ?_⟩
  have htimely : Timely machinery after before.tasks.size :=
    machinery_punctual.timely_play (fun id => machinery_punctual.timely_settle _ id) moves _
  cases hcourse with
  | @asked v since hs hb hd hle hlook =>
    refine .inl ⟨hb, .inr (.inr ⟨rfl, fun d hdue => ?_⟩)⟩
    obtain ⟨next, hnext, hwake⟩ := Instant.earlier_le_right (a := some v.nextLook) (hd.trans hdue)
    exact Nat.lt_of_lt_of_le (htimely _ htask next hwake) hnext
  | killed hs hf => exact .inr hf
  | gone hb _ => exact hb.imp (fun hb => ⟨hb, .inl ⟨_, rfl⟩⟩) id
  | left hf => exact .inr hf
  | cancelled hb => exact hb.imp (fun hb => ⟨hb, .inr (.inl ⟨_, rfl⟩)⟩) id

/-- Neither the group nor two of the members can be signalled, and one member ignores what it is
asked. -/
theorem killTree_schedule_of_refusals :
    let others : List Birth :=
      [{ spec := { pid := 40, ppid := 1, pgid := 40, obstacles := { terminate := some .denied } } },
       { spec :=
           { pid := 41, ppid := 40, pgid := 40, obstacles := { terminate := some .absent } } },
       { spec := { pid := 42, ppid := 41, pgid := 42, onTerm := none } }]
    let before : Timeline Session Activity Result :=
      { state := ({} : Session).afresh { groupErrors := [(40, .ofNumber 1)] } others }
    let step : Step Command := .act (.killTree 40 (some (.ofDecimal 1 (-1))) none)
    let moves := List.replicate 2 Move.tick
    let found := (members before.state.system 40).1.toOption.getD []
    found.map (·.pid) = [40, 41, 42] ∧
      Forced before.state.system 40 found (some (Instant.ofMillis 100))
        (bouts (turnsOfStep machinery before step moves)) := by
  intro others before step moves found
  have hbefore : Later machinery
      { state := ({} : Session).afresh { groupErrors := [(40, .ofNumber 1)] } others }
    before := .refl
  have hstep : step.command? = some (.killTree 40 (some (.ofDecimal 1 (-1))) none) := rfl
  have hm : (members before.state.system 40).1 = .ok found := by decide +kernel
  have hne : found ≠ [] := by decide +kernel
  have htwo : (bouts (turnsOfStep machinery before step moves)).length = 2 := by decide +kernel
  have hdeadline : (Seconds.ofDecimal 1 (-1)).deadline before.state.now =
      some (Instant.ofMillis 100) := by decide +kernel
  refine ⟨by decide +kernel, ?_⟩
  obtain ⟨task, -, ⟨hone, -⟩ | hforced⟩ := killTree_schedule hbefore hstep hm hne moves
  · rw [hone] at htwo
    cases htwo
  · exact hdeadline ▸ hforced

end Session

end Overseer
