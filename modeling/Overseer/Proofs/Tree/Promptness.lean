import Overseer.Proofs.Number.LimitSpans
import Overseer.Proofs.Supervision.ExitCodes
import Overseer.Proofs.Tree.KillVolleys
import Overseer.Proofs.Tree.Refusals

/-!
# How soon a tree is ended

Those who are left when the first limit runs out are killed, and from then on they are looked at in
steps of `lookInterval`. As long as a look finds somebody alive, it is earlier than the moment by
which those who were killed are dead; and the next look is only one step later. So if the second
limit leaves time for one look more, it never runs out.
-/

namespace Overseer

open Overseer.Tree Number World Timeline

namespace Tree

/-- As far as some turns show, someone who has been killed is dead after a delay. Kills before a
moment do not matter. -/
def Succumbs (turns : List (Session × Session)) (since : Option Instant) (delay : Nat)
    (p : ProcessRef) : Prop :=
  ∀ a ∈ turns, ∀ b ∈ turns, Instant.reached a.2.now since = true → a.2.system.struck p = true →
    a.2.now + delay ≤ b.2.now → b.2.system.alive p = false

instance (turns : List (Session × Session)) (since : Option Instant) (delay : Nat)
    (p : ProcessRef) : Decidable (Succumbs turns since delay p) :=
  inferInstanceAs (Decidable (∀ a ∈ turns, ∀ b ∈ turns, _ → _ → _ → _))

/-- Some members of a tree were killed at a moment, and were alive at a later look. -/
structure Outlasting (found : List ProcessRef) (turns : List (Session × Session))
    (alive : List ProcessRef) (moment since : Instant) : Prop where
  ne_nil : alive ≠ []
  found : ∀ p ∈ alive, p ∈ found
  struck : ∃ turn ∈ turns, turn.2.now = moment ∧ ∀ p ∈ alive, turn.2.system.struck p = true
  seen : ∃ turn ∈ turns, turn.2.now = since ∧ ∀ p ∈ alive, turn.2.system.alive p = true

/-- What the task that ends a tree waits for, and when it has ended. Members are killed when the
first limit runs out, if it ever does. -/
inductive Pace (tree : Termination) (due : Option Instant) (found : List ProcessRef)
    (turns : List (Session × Session)) (now : Instant) :
    Task Session.Activity Session.Result → Prop where
  | asked {v : Vigil} : v.stage = .asked → v.deadline = due → (∀ d, due = some d → now ≤ d) →
      (∀ p ∈ v.alive, p ∈ found) →
      Pace tree due found turns now (.pending (.act (.tree { tree with vigil := some v })))
  | killed {v : Vigil} {moment since : Instant} : v.stage = .killed → due = some moment →
      v.deadline = tree.killLimit.deadline moment → v.nextLook = since + lookInterval →
      now ≤ v.nextLook → Outlasting found turns v.alive moment since →
      Pace tree due found turns now (.pending (.act (.tree { tree with vigil := some v })))
  | inTime {time : Instant} : (∀ d, due = some d → time ≤ d) →
      Pace tree due found turns now (.ended time (.result (.ok .nothing)))
  | later {time moment since : Instant} {alive : List ProcessRef} : due = some moment →
      time ≤ since + lookInterval → Outlasting found turns alive moment since →
      Pace tree due found turns now (.ended time (.result (.ok .nothing)))
  | tooLate {time moment since d : Instant} {alive : List ProcessRef} {failure : Failure} :
      due = some moment → tree.killLimit.deadline moment = some d → d ≤ since + lookInterval →
      Outlasting found turns alive moment since →
      Pace tree due found turns now (.ended time (.result (.error failure)))
  | cancelled {time : Instant} : Pace tree due found turns now (.ended time .cancelled)

section

variable {tree : Termination} {due : Option Instant} {found alive : List ProcessRef}
  {turns : List (Session × Session)} {now moment since : Instant} {delay : Nat}
  {task : Task Session.Activity Session.Result}

theorem Outlasting.append (h : Outlasting found turns alive moment since)
    (more : List (Session × Session)) : Outlasting found (turns ++ more) alive moment since where
  ne_nil := h.ne_nil
  found := h.found
  struck := by
    obtain ⟨turn, hturn, hrest⟩ := h.struck
    exact ⟨turn, List.mem_append_left more hturn, hrest⟩
  seen := by
    obtain ⟨turn, hturn, hrest⟩ := h.seen
    exact ⟨turn, List.mem_append_left more hturn, hrest⟩

theorem Outlasting.lt (h : Outlasting found turns alive moment since)
    (hdies : ∀ p ∈ found, Succumbs turns (some moment) delay p) : since < moment + delay := by
  obtain ⟨p, hp⟩ := List.exists_mem_of_ne_nil alive h.ne_nil
  obtain ⟨a, ha, rfl, hstruck⟩ := h.struck
  obtain ⟨b, hb, rfl, halive⟩ := h.seen
  by_contra hlate
  have hreached : Instant.reached a.2.now (some a.2.now) = true :=
    Instant.reached_eq_true_iff.mpr ⟨_, rfl, Nat.le_refl _⟩
  have hdead := hdies p (h.found p hp) a ha b hb hreached (hstruck p hp) (Nat.not_lt.mp hlate)
  rw [halive p hp] at hdead
  cases hdead

theorem Pace.of_afterKill {turn : Session × Session} {vigil : Option Vigil}
    {progress : Progress Termination Termination.Result} (hdue : due = some moment)
    (hfound : ∀ p ∈ alive, p ∈ found)
    (hstruck : ∃ other ∈ turns ++ [turn], other.2.now = moment ∧
      ∀ p ∈ alive.filter turn.2.system.alive, other.2.system.struck p = true)
    (hgone : Pace tree due found (turns ++ [turn]) turn.2.now
      (.ended turn.2.now (.result (.ok .nothing))))
    (h : Termination.AfterKill { tree with vigil } alive (tree.killLimit.deadline moment)
      turn.2.system progress) :
    Pace tree due found (turns ++ [turn]) turn.2.now (taskOf turn.2.now progress) := by
  have houtlasting (hne : alive.filter turn.2.system.alive ≠ []) :
      Outlasting found (turns ++ [turn]) (alive.filter turn.2.system.alive) moment turn.2.now :=
    { ne_nil := hne
      found := fun p hp => hfound p (List.mem_filter.mp hp).1
      struck := hstruck
      seen := ⟨turn, List.mem_append_right turns List.mem_cons_self, rfl,
        fun p hp => (List.mem_filter.mp hp).2⟩ }
  cases h with
  | gone => exact hgone
  | left hne hreached =>
    obtain ⟨d, hd, hpast⟩ := Instant.reached_eq_true_iff.mp hreached
    exact .tooLate hdue hd (Nat.le_trans hpast (Nat.le_add_right _ _)) (houtlasting hne)
  | wait hne => exact .killed rfl hdue rfl rfl (Nat.le_add_right _ _) (houtlasting hne)

theorem Pace.of_afterAsk {turn : Session × Session} {w : System} {vigil : Option Vigil}
    {progress : Progress Termination Termination.Result}
    (hle : ∀ d, due = some d → turn.2.now ≤ d) (hr : Instant.reached w.now due = false)
    (hfound : ∀ p ∈ alive, p ∈ found)
    (h : Termination.AfterAsk { tree with vigil } alive due w turn.2.system progress) :
    Pace tree due found (turns ++ [turn]) turn.2.now (taskOf turn.2.now progress) := by
  cases h with
  | gone => exact .inTime hle
  | kill _ hreached =>
    rw [hr] at hreached
    cases hreached
  | wait => exact .asked rfl rfl hle fun p hp => hfound p (List.mem_filter.mp hp).1

theorem Pace.waits {errand : Errand Session.Activity}
    (h : Pace tree due found turns now (.pending errand)) :
    ∃ v, errand = .act (.tree { tree with vigil := some v }) ∧ ∀ p ∈ v.alive, p ∈ found := by
  cases h with
  | asked _ _ _ hfound => exact ⟨_, rfl, hfound⟩
  | killed _ _ _ _ _ houtlasting => exact ⟨_, rfl, houtlasting.found⟩

theorem Pace.advance {later : Instant} (h : Pace tree due found turns now task)
    (hwake : ∀ next, task.wake Session.wake = some next → later ≤ next) :
    Pace tree due found turns later task := by
  cases h with
  | asked hs hd hle hfound =>
    refine .asked hs hd (fun d hdue => ?_) hfound
    obtain ⟨next, hnext, hw⟩ := Instant.earlier_le_right (hd.trans hdue)
    exact Nat.le_trans (hwake next hw) hnext
  | @killed v moment since hs hdue hd hn hle houtlasting =>
    refine .killed hs hdue hd hn ?_ houtlasting
    obtain ⟨next, hnext, hw⟩ := Instant.earlier_le_left (b := v.deadline) rfl
    exact Nat.le_trans (hwake next hw) hnext
  | inTime hle => exact .inTime hle
  | later hdue hle houtlasting => exact .later hdue hle houtlasting
  | tooLate hdue hd hle houtlasting => exact .tooLate hdue hd hle houtlasting
  | cancelled => exact .cancelled

theorem Pace.goOn (turn : Session × Session) {v : Vigil}
    {progress : Progress Termination Termination.Result} (hsound : turn.1.system.Sound)
    (hkill : ∀ p ∈ found, p.obstacles.kill = none) (hnow : turn.2.now = turn.1.now)
    (h : Pace tree due found turns turn.1.now
      (.pending (.act (.tree { tree with vigil := some v }))))
    (hs : Termination.Sequel { tree with vigil := some v } v turn.1.system turn.2.system progress) :
    Pace tree due found (turns ++ [turn]) turn.2.now (taskOf turn.2.now progress) := by
  cases h with
  | asked hstage hd hle hfound =>
    rw [← hnow] at hle
    cases hs with
    | kill _ hreached hkills =>
      -- the clock never jumps beyond the deadline, so the deadline is now
      obtain ⟨d, hdue, hpast⟩ := Instant.reached_eq_true_iff.mp hreached
      have hdue' : due = some turn.2.now := by
        rw [← hd, hdue, Nat.le_antisymm (hle d (hd.symm.trans hdue)) (hnow ▸ hpast)]
      have hlook := hkills.look
      have hmoment : turn.1.system.now = turn.2.now := hnow.symm
      rw [hmoment] at hlook
      refine .of_afterKill hdue' hfound ?_ (.inTime hle) hlook
      refine ⟨turn, List.mem_append_right turns List.mem_cons_self, rfl, fun p hp => ?_⟩
      obtain ⟨hmem, halive⟩ := List.mem_filter.mp hp
      rw [hkills.system] at halive ⊢
      exact struck_of_volley hsound hmem (hkill p (hfound p hmem)) halive
    | left _ hother => cases hstage.symm.trans hother
    | lookAsked _ hr hask =>
      rw [hd] at hr hask
      exact .of_afterAsk hle hr hfound hask
    | lookKilled _ hother => cases hstage.symm.trans hother
    | wait => exact .asked hstage hd hle hfound
  | @killed _ moment since hstage hdue hd hn hle houtlasting =>
    rw [← hnow] at hle
    have hkept := houtlasting.append [turn]
    cases hs with
    | kill hother => cases hstage.symm.trans hother
    | left _ _ hreached =>
      obtain ⟨d, hdeadline, hpast⟩ := Instant.reached_eq_true_iff.mp hreached
      refine .tooLate hdue (hd.symm.trans hdeadline) ?_ hkept
      rw [← hn]
      exact Nat.le_trans (hnow ▸ hpast) hle
    | lookAsked hother => cases hstage.symm.trans hother
    | lookKilled hsame _ _ hlook =>
      rw [← hsame, hd] at hlook
      refine .of_afterKill hdue hkept.found ?_ (.later hdue (hn ▸ hle) hkept) hlook
      obtain ⟨other, hother, hmoment, hstruck⟩ := hkept.struck
      exact ⟨other, hother, hmoment, fun p hp => hstruck p (List.mem_filter.mp hp).1⟩
    | wait => exact .killed hstage hdue hd hn hle hkept

/-- The task begins by asking the members to end. A positive limit has not run out by then. -/
theorem Pace.start (turn : Session × Session) {progress : Progress Termination Termination.Result}
    (hpositive : tree.termLimit.Positive) (hnow : turn.2.now = turn.1.now)
    (h : Termination.AfterAsk tree found (tree.termLimit.deadline turn.1.now)
      (afterAsking turn.1.system tree.pid found) turn.2.system progress) :
    Pace tree (tree.termLimit.deadline turn.1.now) found [turn] turn.2.now
      (taskOf turn.2.now progress) := by
  have hasked : (afterAsking turn.1.system tree.pid found).now = turn.1.now :=
    System.now_sendAll _ _
  have hbefore : ∀ d, tree.termLimit.deadline turn.1.now = some d → turn.1.now < d := fun d hd =>
    hpositive.lt_deadline hd
  have hr : Instant.reached (afterAsking turn.1.system tree.pid found).now
      (tree.termLimit.deadline turn.1.now) = false := by
    rw [hasked]
    exact Instant.reached_eq_false_iff.mpr hbefore
  change Pace tree _ found ([] ++ [turn]) _ _
  refine .of_afterAsk (fun d hd => ?_) hr (fun p hp => hp) h
  rw [hnow]
  exact Nat.le_of_lt (hbefore d hd)

/-- If the second limit leaves time for one look after those who were killed are dead, the task ends
as it should, and it has no more to wait for than that look. -/
theorem Pace.in_time (h : Pace tree due found turns now task)
    (hdies : ∀ p ∈ found, Succumbs turns due delay p)
    (hlimit : tree.killLimit.Exceeds (delay + lookInterval)) :
    (∃ time, task = .ended time (.result (.ok .nothing)) ∧
      ∀ d, due = some d → time < d + (delay + lookInterval)) ∨
    (task.isPending = true ∧ ∀ d, due = some d →
      ∃ next, task.wake Session.wake = some next ∧ next < d + (delay + lookInterval)) ∨
    ∃ time, task = .ended time .cancelled := by
  have hroom : ∀ d : Instant, d < d + (delay + lookInterval) := fun d =>
    Nat.lt_add_of_pos_right (Nat.lt_of_lt_of_le (by decide) (Nat.le_add_left lookInterval delay))
  -- a look that somebody outlasts is earlier than the latest moment of a death
  have hearly : ∀ {alive moment since}, due = some moment →
      Outlasting found turns alive moment since →
      since + lookInterval < moment + (delay + lookInterval) := by
    intro alive moment since hdue houtlasting
    rw [← Nat.add_assoc]
    exact Nat.add_lt_add_right (houtlasting.lt fun p hp => hdue ▸ hdies p hp) lookInterval
  cases h with
  | asked hs hd hle hfound =>
    refine .inr (.inl ⟨rfl, fun d hdue => ?_⟩)
    obtain ⟨next, hnext, hw⟩ := Instant.earlier_le_right (hd.trans hdue)
    exact ⟨next, hw, Nat.lt_of_le_of_lt hnext (hroom d)⟩
  | @killed v moment since hs hdue hd hn hle houtlasting =>
    refine .inr (.inl ⟨rfl, fun d hd' => ?_⟩)
    obtain rfl := Option.some.inj (hdue.symm.trans hd')
    obtain ⟨next, hnext, hw⟩ := Instant.earlier_le_left (b := v.deadline) rfl
    exact ⟨next, hw, Nat.lt_of_le_of_lt (hn ▸ hnext) (hearly hdue houtlasting)⟩
  | inTime hle =>
    exact .inl ⟨_, rfl, fun d hdue => Nat.lt_of_le_of_lt (hle d hdue) (hroom d)⟩
  | later hdue hle houtlasting =>
    refine .inl ⟨_, rfl, fun d hd => ?_⟩
    obtain rfl := Option.some.inj (hdue.symm.trans hd)
    exact Nat.lt_of_le_of_lt hle (hearly hdue houtlasting)
  | tooLate hdue hd hle houtlasting =>
    have hfits := hlimit.le_deadline hd
    exact absurd (hearly hdue houtlasting) (Nat.not_lt.mpr (Nat.le_trans hfits hle))
  | cancelled => exact .inr (.inr ⟨_, rfl⟩)

theorem Pace.exists_wake {errand : Errand Session.Activity}
    (h : Pace tree due found turns now (.pending errand)) :
    ∃ next, (Task.pending errand : Task Session.Activity Session.Result).wake Session.wake =
      some next := by
  obtain ⟨v, rfl, -⟩ := h.waits
  obtain ⟨next, -, hw⟩ := Instant.earlier_le_left (a := some v.nextLook) (b := v.deadline) rfl
  exact ⟨next, hw⟩

end

end Tree

namespace Session

section

variable {tree : Termination} {due : Option Instant} {found : List ProcessRef}
  {before : Timeline Session Activity Result} {step : Step Command} {pid : Int}
  {termLimit killLimit : Option Seconds} {s : Session} {w : System} {others : List Birth}

theorem upheld_pace
    (hclear : ∀ p ∈ found, p.obstacles.status = none ∧ p.obstacles.kill = none) (id : TaskId) :
    Upheld machinery id fun turns t task =>
      t.state.system.Sound ∧ Pace tree due found turns t.state.now task where
  still {turns t u task} hlater hnow h := by
    have hsame : u.state.now = t.state.now := hnow
    exact ⟨(evolves_later hlater).sound h.1, hsame ▸ h.2⟩
  tick {turns t task moment} _ htask hnext h := by
    have hnow : (machinery.advance t.state moment).now = moment :=
      machinery_punctual.now_advance t.state moment
    refine ⟨(System.evolves_advance _ moment).sound h.1, ?_⟩
    rw [hnow]
    exact h.2.advance fun next hwake => nextMoment_le_wake (m := machinery) hnext htask hwake
  cancel h := ⟨h.1, .cancelled⟩
  poll {turns t errand} htask h := by
    obtain ⟨hsound, hpace⟩ := h
    have hlater : Later machinery t (pollTask machinery t id) := .poll id .refl
    refine ⟨(evolves_later hlater).sound hsound, ?_⟩
    have hstate := (pollTask_pending (m := machinery) htask).1
    have hnow : (pollTask machinery t id).state.now = t.state.now :=
      machinery_punctual.now_pollTask t id
    obtain ⟨v, rfl, hfound⟩ := hpace.waits
    rw [hstate] at hnow ⊢
    exact .goOn (t.state, _) hsound (fun p hp => (hclear p hp).2) hnow hpace
      (Termination.sequel_keepVigil (fun p hp => (hclear p (hfound p hp)).1) _ t.state.fleet.scene)

theorem launch_of_nobody (hstep : step.command? = some (.killTree pid termLimit killLimit))
    (hm : (members before.state.system pid).1 = .ok []) :
    (launch machinery before step).tasks[before.tasks.size]? =
      some (.ended before.state.now (.result (.ok .nothing))) := by
  obtain ⟨-, htask, -⟩ := launch_command (m := machinery) hstep before
  have hnone : ∀ p ps, (members before.state.system pid).1 ≠ .ok (p :: ps) := by
    intro p ps hsome
    rw [hm] at hsome
    cases hsome
  have hover : ((ending pid termLimit killLimit).start before.state.fleet.scene).2 =
      .done (.ok ()) :=
    (Termination.start_of_none _ hnone).2.trans
      (congrArg (fun r => Progress.done (Except.map (fun _ => ()) r)) hm)
  have hdone : (machinery.start before.activities (.killTree pid termLimit killLimit)
      before.state).2 = .done (.ok .nothing) :=
    congrArg (·.map Activity.tree (·.map fun _ => Answer.nothing)) hover
  have hnow := machinery_punctual.now_start before.activities
    (.killTree pid termLimit killLimit) before.state
  rw [hdone, hnow] at htask
  exact htask

theorem pace_play (hsound : before.state.system.Sound)
    (hstep : step.command? = some (.killTree pid termLimit killLimit))
    (hm : (members before.state.system pid).1 = .ok found)
    (hclear : ∀ p ∈ found, p.obstacles.status = none ∧ p.obstacles.kill = none)
    (hpositive : (ending pid termLimit killLimit).termLimit.Positive)
    (moves : List (Move Command)) :
    let after := play machinery (move machinery before (.begin step)) moves
    let tree := ending pid termLimit killLimit
    ∃ task, after.tasks[before.tasks.size]? = some task ∧
      Pace tree (tree.termLimit.deadline before.state.now) found
        (turnsOfStep machinery before step moves) after.state.now task := by
  intro after tree
  have hlater : Later machinery before (launch machinery before step) := .launch step .refl
  obtain ⟨hstate, htask, -⟩ := launch_command (m := machinery) hstep before
  have hnow : (launch machinery before step).state.now = before.state.now :=
    machinery_punctual.now_launch before step
  have hbegun : Holding (fun turns t task => t.state.system.Sound ∧
      Pace tree (tree.termLimit.deadline before.state.now) found turns t.state.now task)
      before.tasks.size [(before.state, (launch machinery before step).state)]
      (launch machinery before step) := by
    by_cases hne : found = []
    · subst hne
      exact ⟨_, launch_of_nobody hstep hm, (evolves_later hlater).sound hsound,
        .inTime fun d hd => Seconds.le_deadline hd⟩
    · have hask := Termination.afterAsk_start (t := tree) (s := before.state.fleet.scene) hm hne
        fun p hp => (hclear p hp).1
      refine ⟨_, htask, (evolves_later hlater).sound hsound, ?_⟩
      rw [hstate] at hnow ⊢
      exact .start (before.state, _) hpositive hnow hask
  obtain ⟨task, hafter, -, hpace⟩ :=
    (upheld_pace hclear before.tasks.size).step machinery_punctual hbegun moves
  exact ⟨task, hafter, hpace⟩

/-- Where no call is made to fail, the members of a tree are found out. -/
theorem exists_members (hw : before.state.system.table.ByPid)
    (hclear : ∀ x ∈ before.state.system.table, x.obstacles = {}) (pid : Int) :
    ∃ found, (members before.state.system pid).1 = .ok found := by
  cases hm : (members before.state.system pid).1 with
  | ok found => exact ⟨found, rfl⟩
  | error failure =>
    cases Barred.of_members hm with
    | group _ hx _ hgroup =>
      rw [hclear _ (ProcessTable.find?_eq_some hx).1] at hgroup
      cases hgroup
    | status hp hstatus =>
      obtain ⟨x, hx, rfl⟩ := mem_table_of_mem_candidates hw hp
      have hopen : x.ref.obstacles = {} := hclear x hx
      rw [hopen] at hstatus
      cases hstatus

/-- As long as a task has something to wait for, each jump of the clock takes time. -/
theorem add_ticks_le {t : Timeline Session Activity Result} {ch : ProcessId → Chronicle}
    (h : Faithful t ch) (id : TaskId) {moves : List (Move Command)}
    (hwaits : ∀ first rest, moves = first ++ rest → ∃ task next,
      (play machinery t first).tasks[id]? = some task ∧ task.wake Session.wake = some next) :
    t.state.now + moves.count .tick ≤ (play machinery t moves).state.now := by
  induction moves generalizing t ch with
  | nil => exact Nat.le_refl _
  | cons x moves ih =>
    have hrest := ih (h.move x) fun first rest hsplit =>
      hwaits (x :: first) rest (congrArg (x :: ·) hsplit)
    have hmoved : t.state.now + [x].count .tick ≤ (move machinery t x).state.now := by
      cases x with
      | begin step => exact h.now_le_move (.begin step)
      | tick =>
        obtain ⟨task, next, htask, hwake⟩ := hwaits [] (.tick :: moves) rfl
        obtain ⟨moment, -, hmoment⟩ :=
          nextMoment_le (m := machinery) (t := t) (.inr ⟨id, task, htask, hwake⟩)
        have hjump : (stir machinery t .tick).state.now = moment := by
          rw [stir, hmoment]
          exact machinery_punctual.now_advance t.state moment
        rw [now_move, hjump]
        exact h.lt_nextMoment hmoment
    rw [← List.singleton_append, List.count_append, ← Nat.add_assoc]
    exact Nat.le_trans (Nat.add_le_add_right hmoved _) hrest

end

/-- Where no call on a process is made to fail, and whoever is killed when the first limit has run
out dies so soon that the second limit leaves time for one look more, a call that ends a tree
succeeds, unless a step cancels it. It ends no later than one look after the first limit and the
time that those who are killed take to die, and then all members that it has found are gone for
good. Until it has ended, this moment is still to come, and each jump of the clock brings it nearer.
-/
theorem killTree_in_time (s : Session) (w : System) (others : List Birth)
    (history : List (Move Command)) {step : Step Command} {pid : Int}
    {termLimit killLimit : Option Seconds} {delay : Nat} (moves : List (Move Command)) :
    let before := play machinery { state := s.afresh w others } history
    let after := play machinery (move machinery before (.begin step)) moves
    let turns := turnsOfStep machinery before step moves
    let term := termLimit.getD Termination.usualTermLimit
    step.command? = some (.killTree pid termLimit killLimit) →
    (∀ x ∈ before.state.system.table, x.obstacles = {}) → term.Positive →
    (killLimit.getD Termination.usualKillLimit).Exceeds (delay + lookInterval) →
    (∀ found, (members before.state.system pid).1 = .ok found → ∀ p ∈ found,
      Succumbs turns (term.deadline before.state.now) delay p) →
    ∃ found task, (members before.state.system pid).1 = .ok found ∧
      after.tasks[before.tasks.size]? = some task ∧
      ((∃ time, task = .ended time (.result (.ok .nothing)) ∧
          term.Covers before.state.now (delay + lookInterval) time ∧
          ∀ p ∈ found, after.state.system.Gone p.serial) ∨
        (task.isPending = true ∧
          term.Covers before.state.now (delay + lookInterval) (after.state.now + 1) ∧
          before.state.now + moves.count .tick ≤ after.state.now) ∨
        ((∃ time, task = .ended time .cancelled) ∧
          ∃ other, .begin other ∈ moves ∧ other.cancels = true)) := by
  intro before after turns term hstep hclear hpositive hlimit hdies
  have hbefore : Later machinery { state := s.afresh w others } before := Later.refl.play history
  have hsound : before.state.system.Sound := sound_later hbefore
  have hw : before.state.system.table.ByPid := byPid_later hbefore
  obtain ⟨found, hm⟩ := exists_members hw hclear pid
  have hfound : ∀ p ∈ found, p.obstacles.status = none ∧ p.obstacles.kill = none := by
    intro p hp
    obtain ⟨x, hx, rfl, -⟩ := mem_members hsound hw hm hp
    have hopen : x.ref.obstacles = {} := hclear x hx
    rw [hopen]
    exact ⟨rfl, rfl⟩
  obtain ⟨task, htask, hpace⟩ := pace_play hsound hstep hm hfound hpositive moves
  refine ⟨found, task, hm, htask, ?_⟩
  -- either it is over, or it still has a moment to wait for, or it has been cancelled
  rcases hpace.in_time (hdies found hm) hlimit with
    ⟨time, rfl, hlt⟩ | ⟨hpending, hnext⟩ | ⟨time, rfl⟩
  · refine .inl ⟨time, rfl, hpositive.covers hlt, ?_⟩
    by_cases hne : found = []
    · subst hne
      exact List.forall_mem_nil _
    · obtain ⟨other, hother, -, hcourse⟩ := course_play hbefore hstep hm hne moves
      obtain rfl := Option.some.inj (htask.symm.trans hother)
      cases hcourse with
      | gone _ hgone => exact hgone
  · have hfaithful := ((faithful_afresh s w others).play history).move (.begin step)
    refine .inr (.inl ⟨hpending, hpositive.covers fun d hd => ?_, ?_⟩)
    · obtain ⟨next, hwake, hlt⟩ := hnext d hd
      have htimely : Timely machinery after before.tasks.size := (hfaithful.play moves).timely _
      exact Nat.lt_of_le_of_lt (htimely task htask next hwake) hlt
    -- as long as the call is pending something is to come, so each jump takes the clock on
    · have hbegun : (move machinery before (.begin step)).state.now = before.state.now :=
        (now_move before (.begin step)).trans (machinery_punctual.now_launch before step)
      rw [← hbegun]
      refine add_ticks_le hfaithful before.tasks.size fun first rest hsplit => ?_
      obtain ⟨earlier, hearlier, hpaced⟩ := pace_play hsound hstep hm hfound hpositive first
      cases earlier with
      | pending errand =>
        obtain ⟨next, hwake⟩ := hpaced.exists_wake
        exact ⟨_, next, hearlier, hwake⟩
      | ended time ending =>
        -- what has ended stays so
        have hover := ended_play (m := machinery) hearlier rest
        rw [← play_append, ← hsplit, htask] at hover
        obtain rfl := Option.some.inj hover
        cases hpending
  · exact .inr (.inr ⟨⟨time, rfl⟩, cancelled_step hstep ⟨time, htask⟩⟩)

def returned? : Task Activity Result → Option Instant
  | .ended time (.result (.ok .nothing)) => some time
  | _ => none

/-- Two members ignore what they are asked, one of them outside the group. After they have been
killed it takes two more looks until both are found dead. -/
theorem killTree_in_time_of_stubborn :
    let others : List Birth :=
      [{ spec := { pid := 40, ppid := 1, pgid := 40, onTerm := none
                   onKill := some (Instant.ofMillis 30) } },
       { spec := { pid := 41, ppid := 40, pgid := 7, onTerm := none
                   onKill := some (Instant.ofMillis 60) } },
       { spec := { pid := 42, ppid := 41, pgid := 40, onTerm := some (Instant.ofMillis 20) } }]
    let before := play machinery { state := ({} : Session).afresh {} others } []
    let term : Seconds := .ofDecimal 12 (-2)
    let step : Step Command := .act (.killTree 40 (some term) (some (.ofDecimal 2 (-1))))
    let moves := List.replicate 8 Move.tick
    let after := play machinery (move machinery before (.begin step)) moves
    let found := (members before.state.system 40).1.toOption.getD []
    (∀ x ∈ before.state.system.table, x.obstacles = {}) ∧ term.Positive ∧
      (Seconds.ofDecimal 2 (-1)).Exceeds (Instant.ofMillis 60 + lookInterval) ∧
      (∀ p ∈ found, Succumbs (turnsOfStep machinery before step moves)
        (term.deadline before.state.now) (Instant.ofMillis 60) p) ∧
      (members before.state.system 40).1 = .ok found ∧ found.map (·.pid) = [40, 41, 42] ∧
      after.tasks[before.tasks.size]?.bind returned? = some (Instant.ofMillis 220) ∧
      term.Covers before.state.now (Instant.ofMillis 60 + lookInterval) (Instant.ofMillis 220) ∧
      ∀ p ∈ found, after.state.system.Gone p.serial := by
  intro others before term step moves after found
  have hstep : step.command? = some (.killTree 40 (some term) (some (.ofDecimal 2 (-1)))) := rfl
  have hclear : ∀ x ∈ before.state.system.table, x.obstacles = {} := by decide +kernel
  have hpositive : term.Positive := by decide +kernel
  have hlimit : (Seconds.ofDecimal 2 (-1)).Exceeds (Instant.ofMillis 60 + lookInterval) := by
    decide +kernel
  have hm : (members before.state.system 40).1 = .ok found := by decide +kernel
  have hdies : ∀ p ∈ found, Succumbs (turnsOfStep machinery before step moves)
      (term.deadline before.state.now) (Instant.ofMillis 60) p := by
    decide +kernel
  have hpids : found.map (·.pid) = [40, 41, 42] := by decide +kernel
  have hreturned : after.tasks[before.tasks.size]?.bind returned? =
      some (Instant.ofMillis 220) := by decide +kernel
  refine ⟨hclear, hpositive, hlimit, hdies, hm, hpids, hreturned, ?_⟩
  clear hpids
  clear_value found
  subst after before
  obtain ⟨other, task, hother, htask, hends⟩ :=
    killTree_in_time _ _ _ _ moves hstep hclear hpositive hlimit fun other hother p hp =>
      hdies p (Except.ok.inj (hother.symm.trans hm) ▸ hp)
  obtain rfl := Except.ok.inj (hm.symm.trans hother)
  rw [htask] at hreturned
  rcases hends with ⟨last, rfl, hcovers, hgone⟩ | ⟨hpending, -⟩ | ⟨⟨last, rfl⟩, -⟩
  · obtain rfl := Option.some.inj hreturned
    exact ⟨hcovers, hgone⟩
  · cases task with
    | pending errand => cases hreturned
    | ended last ending => cases hpending
  · cases hreturned

end Session

end Overseer
