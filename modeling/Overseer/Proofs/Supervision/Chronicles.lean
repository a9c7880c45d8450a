import Overseer.Proofs.Session.IdleActivities
import Overseer.Proofs.Supervision.Echo

/-!
# Chronicles of sessions

Whoever watches a session can keep the chronicle of each program: what comes into its pipe when a
move begins, and what has come to its end when everything has settled (`Chronicle.observe`). After
every play the log of each process is what the chronicle of its program says (`Faithful`), whatever
else goes on in the session.
-/

namespace Overseer

open Lines Number Octets World

theorem Chronicle.mark_same {p q : Supervised} (h : p.Same q) (ch : Chronicle) (now : Instant)
    (c : Child) : ch.mark now q c = ch.mark now p c := by
  obtain ⟨log, rfl, -, hc⟩ := h
  simp only [Chronicle.mark, hc]

def Fleet.unread (f : Fleet) (id : ProcessId) : List (List UInt8) :=
  ((f.view? id).map (·.2.unread)).getD []

def Fleet.broken (f : Fleet) (id : ProcessId) : Bool :=
  ((f.view? id).map (·.2.isBroken)).getD false

/-- The chronicle of a program after a move of the session: what is in its pipe as soon as the move
has begun has come by then, and when everything has settled it shows what has come to its end. -/
def Chronicle.observe (ch : Chronicle) (id : ProcessId) (before stirred after : Fleet) :
    Chronicle :=
  match after.view? id with
  | some (p, c) =>
    (ch.hear after.now ((stirred.unread id).drop (before.unread id).length)
      (stirred.broken id)).mark after.now p c
  | none => ch

def Session.chronicle (id : ProcessId) (t : Timeline Session Session.Activity Session.Result)
    (ch : Chronicle) : List (Move Session.Command) → Chronicle
  | [] => ch
  | x :: moves =>
    let stirred := Timeline.stir Session.machinery t x
    let after := Timeline.move Session.machinery t x
    chronicle id after (ch.observe id t.state.fleet stirred.state.fleet after.state.fleet) moves

namespace Fleet

structure Orderly (f : Fleet) : Prop where
  paired : f.Paired
  listed : f.scene.system.Listed
  upcoming : f.scene.system.Upcoming

structure AtWork (f : Fleet) (id : ProcessId) (ch : Chronicle) (now : Instant) : Prop where
  orderly : f.Orderly
  time : f.now = now
  underway : ∀ p c, f.view? id = some (p, c) → Underway p c ch now

structure AtRest (f : Fleet) (id : ProcessId) (ch : Chronicle) (now : Instant) : Prop where
  orderly : f.Orderly
  time : f.now = now
  settled : ∀ p c, f.view? id = some (p, c) → Settled p c (ch.mark now p c) now

variable {f g : Fleet} {id : ProcessId} {p q : Supervised} {c d : Child} {ch : Chronicle}
  {now : Instant}

theorem unread_of_view (hv : f.view? id = some (p, c)) : f.unread id = c.unread := by
  rw [unread, hv]
  rfl

theorem unread_of_none (hv : f.view? id = none) : f.unread id = [] := by
  rw [unread, hv]
  rfl

theorem broken_of_view (hv : f.view? id = some (p, c)) : f.broken id = c.isBroken := by
  rw [broken, hv]
  rfl

theorem Orderly.frame (hf : f.Orderly) (h : Frame f g) : g.Orderly :=
  ⟨h.paired hf.paired, h.listed hf.listed, h.upcoming hf.upcoming⟩

theorem Orderly.advance (hf : f.Orderly) (t : Instant) : (f.advance t).Orderly where
  paired := by
    have hsize := (System.onward_advance f.scene.system t).size
    exact ⟨hsize.trans hf.paired.size, hf.paired.child⟩
  listed := (System.onward_advance f.scene.system t).listed hf.listed
  upcoming := hf.upcoming.advance t

theorem AtWork.carries (h : f.AtWork id ch now) (hc : Carries False f g) : g.AtWork id ch now where
  orderly := h.orderly.frame hc.toFrame
  time := hc.now.trans h.time
  underway q d hv := by
    rcases hc.view h.orderly.paired id q d hv with ⟨p, c, hp, hs, hg⟩ | ⟨hk, -⟩
    · exact (h.underway p c hp).same hs hg
    · exact hk.elim

theorem AtWork.readOutputs (h : f.AtWork id ch now) :
    f.readOutputs.AtWork id ch now ∧
      ∀ q d, f.readOutputs.view? id = some (q, d) → UpToDate q d := by
  have hread : ∀ q d, f.readOutputs.view? id = some (q, d) →
      Underway q d ch now ∧ UpToDate q d := by
    intro q d hv
    obtain ⟨p, c, hp, hs⟩ := view_readOutputs h.orderly.paired hv
    rw [h.time] at hs
    exact (h.underway p c hp).readOutput hs
  have hframe := frame_readOutputs f
  exact ⟨⟨h.orderly.frame hframe, hframe.now.trans h.time, fun q d hv => (hread q d hv).1⟩,
    fun q d hv => (hread q d hv).2⟩

theorem AtWork.watchEnds (h : f.AtWork id ch now)
    (hup : ∀ p c, f.view? id = some (p, c) → UpToDate p c) : f.watchEnds.AtRest id ch now where
  orderly := h.orderly.frame (frame_watchEnds f)
  time := (frame_watchEnds f).now.trans h.time
  settled q d hv := by
    rcases view_watchEnds h.orderly.paired h.orderly.listed hv with
      ⟨hx, hv⟩ | ⟨p, noticed, last, hv, hx, hnotice, hgive, hreport⟩
    · exact (h.underway q d hv).settled_of_running (hup q d hv) hx
    · rw [h.time] at hnotice hgive hreport
      exact (h.underway p d hv).watched (hup p d hv) hx hnotice hgive hreport

theorem AtRest.readOutputs (h : f.AtRest id ch now) : f.readOutputs.AtRest id ch now where
  orderly := h.orderly.frame (frame_readOutputs f)
  time := (frame_readOutputs f).now.trans h.time
  settled q d hv := by
    obtain ⟨p, c, hp, hs⟩ := view_readOutputs h.orderly.paired hv
    rw [h.time] at hs
    obtain ⟨rfl, rfl⟩ := (h.settled p c hp).readOutput hs
    exact h.settled q d hp

theorem AtRest.watchEnds (h : f.AtRest id ch now) : f.watchEnds.AtRest id ch now where
  orderly := h.orderly.frame (frame_watchEnds f)
  time := (frame_watchEnds f).now.trans h.time
  settled q d hv := by
    rcases view_watchEnds h.orderly.paired h.orderly.listed hv with
      ⟨-, hv⟩ | ⟨p, noticed, last, hv, hx, hnotice, hgive, hreport⟩
    · exact h.settled q d hv
    · rw [h.time] at hnotice hgive hreport
      obtain rfl := (h.settled p d hv).watched hx hnotice hgive hreport
      exact h.settled q d hv

theorem AtRest.carries (h : f.AtRest id ch now) (hc : Carries False f g)
    (hs : g.scene.system = f.scene.system) : g.AtRest id ch now where
  orderly := h.orderly.frame hc.toFrame
  time := hc.now.trans h.time
  settled q d hv := by
    rcases hc.view h.orderly.paired id q d hv with ⟨p, c, hp, hsame, -⟩ | ⟨hk, -⟩
    · have hchild : q.child = p.child := by
        obtain ⟨log, rfl, -⟩ := hsame
        rfl
      have hd := (view?_eq_some_iff.mp hv).2
      rw [hs, hchild, (view?_eq_some_iff.mp hp).2] at hd
      obtain rfl := Option.some.inj hd
      rw [Chronicle.mark_same hsame]
      exact (h.settled p c hp).same hsame
    · exact hk.elim

end Fleet

namespace Session

open Timeline

variable {t : Timeline Session Activity Result} {id : ProcessId} {ch : Chronicle} {now : Instant}

def Resting (t : Timeline Session Activity Result) (task : TaskId) : Prop :=
  ∀ a, t.tasks[task]? = some (.pending (.act a)) → a.Quiet t.state.now

theorem now_pollTask (t : Timeline Session Activity Result) (task : TaskId) :
    (pollTask machinery t task).state.now = t.state.now :=
  machinery_punctual.now_pollTask t task

theorem resting_pollTask_self (t : Timeline Session Activity Result) (task : TaskId) :
    Resting (pollTask machinery t task) task := by
  intro a ha
  rw [now_pollTask]
  rcases act_pollTask (m := machinery) ha with ⟨hne, -⟩ | ⟨b, -, hb⟩
  · exact absurd rfl hne
  · have hleaves := leaves_poll b t.state
    rw [show (poll b t.state).2 = .pending a from hb] at hleaves
    cases hleaves with
    | pending h => exact h

theorem resting_pollTask_of_ne {task other : TaskId} (hne : task ≠ other) (h : Resting t other) :
    Resting (pollTask machinery t task) other := by
  intro a ha
  rw [pollTask_of_ne hne] at ha
  rw [now_pollTask]
  exact h a ha

theorem resting_pollTask (h : ∀ task, Resting t task) (task other : TaskId) :
    Resting (pollTask machinery t task) other := by
  by_cases he : task = other
  · subst he
    exact resting_pollTask_self t task
  · exact resting_pollTask_of_ne he (h other)

theorem resting_pollAll (t : Timeline Session Activity Result) (task : TaskId) :
    Resting (pollAll machinery t) task := by
  by_cases hlt : task < t.tasks.size
  · exact pollAll_each (m := machinery) (P := fun _ => True) (Q := Resting)
      (fun _ _ _ => trivial) (fun u task _ => resting_pollTask_self u task)
      (fun _ _ _ _ => resting_pollTask_of_ne) trivial task hlt
  · have hsize : (pollAll machinery t).tasks.size = t.tasks.size :=
      pollAll_induction (P := fun u => u.tasks.size = t.tasks.size)
        (fun u other hu => (size_pollTask u other).trans hu) rfl
    intro a ha
    exact absurd (hsize ▸ (Array.getElem?_eq_some_iff.mp ha).1) hlt

theorem Resting.of_now {task : TaskId} {s : Session} (h : Resting t task)
    (hs : s.now = t.state.now) : Resting { t with state := s } task := by
  intro a ha
  rw [hs]
  exact h a ha

theorem system_pollTask (h : ∀ task, Resting t task) (task : TaskId) :
    (pollTask machinery t task).state.fleet.scene.system = t.state.fleet.scene.system := by
  obtain ⟨a, ha, hp⟩ | ⟨-, hs, -⟩ := pollTask_cases (m := machinery) t task
  · rw [hp]
    exact Activity.Quiet.system_poll (h task a ha)
  · rw [hs]

theorem atRest_settle (h : t.state.fleet.AtWork id ch now) :
    (settle machinery t).state.fleet.AtRest id ch now := by
  let u := pollAll machinery { t with state := machinery.deliver t.state }
  have hpolled : u.state.fleet.AtWork id ch now :=
    pollAll_induction (P := fun u : Timeline Session Activity Result =>
      u.state.fleet.AtWork id ch now)
      (fun u task hu => hu.carries (calls_pollTask u task).carries) h.readOutputs.1
  obtain ⟨hread, hup⟩ := hpolled.readOutputs
  have hnow : (machinery.complete (machinery.deliver u.state)).now = u.state.now :=
    (hread.watchEnds hup).time.trans hpolled.time.symm
  have hsettled := settle_of_noticed (m := machinery) (t := t)
    (P := fun u : Timeline Session Activity Result =>
      (∀ task, Resting u task) ∧ u.state.fleet.AtRest id ch now) ?_ ?_ ?_ ?_
  · exact hsettled.2
  · exact ⟨fun task => (resting_pollAll _ task).of_now hnow, hread.watchEnds hup⟩
  · intro u ⟨hrest, hu⟩
    have hnow := machinery_punctual.now_deliver u.state
    exact ⟨fun task => (hrest task).of_now hnow, hu.readOutputs⟩
  · intro u ⟨hrest, hu⟩
    have hnow := machinery_punctual.now_complete u.state
    exact ⟨fun task => (hrest task).of_now hnow, hu.watchEnds⟩
  · intro u task ⟨hrest, hu⟩
    have hcarries := (calls_pollTask u task).carries
    exact ⟨resting_pollTask hrest task, hu.carries hcarries (system_pollTask hrest task)⟩

/-- A session whose chronicles are true: everything is at rest, and what has not begun has no
chronicle. -/
structure Faithful (t : Timeline Session Activity Result) (ch : ProcessId → Chronicle) : Prop where
  orderly : t.state.fleet.Orderly
  timely : ∀ task, Timely machinery t task
  settled : ∀ id p c, t.state.fleet.view? id = some (p, c) → Settled p c (ch id) t.state.now
  unborn : ∀ id, t.state.fleet.view? id = none → ch id = {}

def news (t : Timeline Session Activity Result) (x : Move Command) (id : ProcessId) :
    List (List UInt8) :=
  ((stir machinery t x).state.fleet.unread id).drop (t.state.fleet.unread id).length

/-- The chronicle of a program with what has come with the beginning of a move. -/
def heard (t : Timeline Session Activity Result) (x : Move Command) (id : ProcessId)
    (ch : Chronicle) : Chronicle :=
  ch.hear (stir machinery t x).state.now (news t x id) ((stir machinery t x).state.fleet.broken id)

theorem Faithful.begin {ch : ProcessId → Chronicle} (h : Faithful t ch) (step : Step Command)
    (id : ProcessId) :
    (stir machinery t (.begin step)).state.fleet.AtWork id (heard t (.begin step) id (ch id))
      t.state.now where
  orderly := h.orderly.frame (calls_launch t step).carries.toFrame
  time := (calls_launch t step).carries.now
  underway q d hv := by
    have hnow : (stir machinery t (.begin step)).state.now = t.state.now :=
      machinery_punctual.now_launch t step
    have hunread : (launch machinery t step).state.fleet.unread id = d.unread :=
      Fleet.unread_of_view hv
    rw [heard, hnow, Fleet.broken_of_view hv]
    rcases (calls_launch t step).carries.view h.orderly.paired id q d hv with
      ⟨p, c, hp, hs, hg⟩ | ⟨-, hsize, hfresh⟩
    · have hnews : news t (.begin step) id = [] := by
        rw [news, stir, hunread, Fleet.unread_of_view hp, hg.unread, List.append_nil,
          List.drop_length]
      have hsettled := h.settled id p c hp
      rw [hnews, hg.broken, hsettled.dated.hear_nothing]
      exact hsettled.toUnderway.same hs hg
    -- the process is new, and so is all that its pipe holds
    · have hnone : t.state.fleet.view? id = none := by
        cases hv : t.state.fleet.view? id with
        | none => rfl
        | some x => exact absurd (Fleet.lt_of_view hv) (Nat.not_lt.mpr hsize)
      have hnews : news t (.begin step) id = d.unread := by
        rw [news, stir, hunread, Fleet.unread_of_none hnone]
        rfl
      rw [hnews, h.unborn id hnone]
      exact hfresh.underway t.state.now

theorem Faithful.lt_nextMoment {ch : ProcessId → Chronicle} (h : Faithful t ch) {moment : Instant}
    (hn : nextMoment machinery t = some moment) : t.state.now < moment := by
  rcases nextMoment_mem hn with hchange | ⟨task, x, hx, hwake⟩
  · have hchange : t.state.fleet.nextChange = some moment := hchange
    rw [Fleet.nextChange, ← Array.foldl_toList] at hchange
    rcases Instant.foldl_earlier_mem hchange with hagenda | ⟨p, hp, hwake⟩
    · obtain ⟨entry, he, rfl⟩ := Option.map_eq_some_iff.mp hagenda
      exact h.orderly.upcoming.2 entry (List.mem_of_mem_head? he)
    · obtain ⟨id, hid⟩ := List.mem_iff_getElem?.mp hp
      have hprocess : t.state.fleet.process? id = some p := by simpa [Fleet.process?] using hid
      obtain ⟨c, hv⟩ := h.orderly.paired.of_process hprocess
      unfold Supervised.wake at hwake
      split at hwake
      next code deadline hphase =>
        obtain ⟨-, hreached⟩ := (h.settled id p c hv).draining code deadline hphase
        exact Instant.reached_eq_false_iff.mp hreached moment hwake
      · cases hwake
  · exact h.timely task x hx moment hwake

theorem nextMoment_le_of_draining {p : Supervised} {c : Child} {moment deadline : Instant}
    {code : Int} (hn : nextMoment machinery t = some moment)
    (hv : t.state.fleet.view? id = some (p, c)) (hp : p.phase = .draining code (some deadline)) :
    moment ≤ deadline := by
  have hwake : p.wake = some deadline := by rw [Supervised.wake, hp]
  have hmem : p ∈ t.state.fleet.processes.toList :=
    List.mem_iff_getElem?.mpr ⟨id, by simpa using (Fleet.view?_eq_some_iff.mp hv).1⟩
  have hchange : ∃ change ≤ deadline, t.state.fleet.nextChange = some change := by
    rw [Fleet.nextChange, ← Array.foldl_toList]
    exact Instant.foldl_earlier_le (.inr ⟨p, hmem, hwake⟩)
  obtain ⟨change, hle, hchange⟩ := hchange
  obtain ⟨next, hnext, he⟩ := Timeline.nextMoment_le (m := machinery) (t := t) (.inl hchange)
  obtain rfl := Option.some.inj (hn.symm.trans he)
  exact Nat.le_trans hnext hle

/-- When the clock jumps, what programs write until then comes into their pipes. -/
theorem Faithful.tick {ch : ProcessId → Chronicle} (h : Faithful t ch) (id : ProcessId) :
    (stir machinery t .tick).state.fleet.AtWork id (heard t .tick id (ch id))
      (stir machinery t .tick).state.now := by
  cases hn : nextMoment machinery t with
  | none =>
    have hstir : stir machinery t .tick = t := by rw [stir, hn]
    have hnews : news t .tick id = [] := by rw [news, hstir, List.drop_length]
    rw [heard, hnews, hstir]
    refine ⟨h.orderly, rfl, fun p c hv => ?_⟩
    have hsettled := h.settled id p c hv
    rw [Fleet.broken_of_view hv, hsettled.dated.hear_nothing]
    exact hsettled.toUnderway
  | some moment =>
    have hstir : stir machinery t .tick = { t with state := machinery.advance t.state moment } := by
      rw [stir, hn]
    have hnow : (machinery.advance t.state moment).now = moment :=
      machinery_punctual.now_advance t.state moment
    have hlt := h.lt_nextMoment hn
    rw [heard, hstir]
    dsimp only
    rw [hnow]
    refine ⟨h.orderly.advance moment, hnow, fun q d hv => ?_⟩
    obtain ⟨c, hp, more, hg⟩ := Fleet.view_advance hv h.orderly.paired
    have hnews : news t .tick id = more := by
      rw [news, hstir, Fleet.unread_of_view hp]
      have hunread : (machinery.advance t.state moment).fleet.unread id = d.unread :=
        Fleet.unread_of_view hv
      rw [hunread, hg.unread, List.drop_left]
    rw [hnews, Fleet.broken_of_view hv]
    exact (h.settled id q c hp).hear hg (fun _ => hlt) (Nat.le_of_lt hlt)
      fun code deadline hphase => nextMoment_le_of_draining hn hp hphase

theorem Faithful.stirred {ch : ProcessId → Chronicle} (h : Faithful t ch) (x : Move Command)
    (id : ProcessId) :
    (stir machinery t x).state.fleet.AtWork id (heard t x id (ch id))
      (stir machinery t x).state.now := by
  cases x with
  | tick => exact h.tick id
  | begin step =>
    have hnow : (stir machinery t (.begin step)).state.now = t.state.now :=
      machinery_punctual.now_launch t step
    rw [hnow]
    exact h.begin step id

theorem size_later {u : Timeline Session Activity Result} (h : Later machinery t u) :
    t.state.fleet.processes.size ≤ u.state.fleet.processes.size := by
  refine Later.induction (m := machinery) (t := t)
    (P := fun u => t.state.fleet.processes.size ≤ u.state.fleet.processes.size)
    ?_ ?_ ?_ ?_ ?_ (Nat.le_refl _) h
  · exact fun u step hu => Nat.le_trans hu (calls_launch u step).carries.size
  · exact fun u moment hu => hu
  · exact fun u hu => Nat.le_trans hu (Fleet.frame_readOutputs u.state.fleet).size
  · exact fun u hu => Nat.le_trans hu (Fleet.frame_watchEnds u.state.fleet).size
  · exact fun u task hu => Nat.le_trans hu (calls_pollTask u task).carries.size

theorem Faithful.move {ch : ProcessId → Chronicle} (h : Faithful t ch) (x : Move Command) :
    Faithful (move machinery t x) fun id =>
      (ch id).observe id t.state.fleet (stir machinery t x).state.fleet
        (Timeline.move machinery t x).state.fleet := by
  have hrest : ∀ id, (Timeline.move machinery t x).state.fleet.AtRest id (heard t x id (ch id))
      (stir machinery t x).state.now :=
    fun id => atRest_settle (h.stirred x id)
  have hnow : (Timeline.move machinery t x).state.now = (stir machinery t x).state.now :=
    machinery_punctual.now_settle _
  refine ⟨(hrest 0).orderly, machinery_punctual.timely_settle _, fun id p c hv => ?_,
    fun id hv => ?_⟩
  · have hsettled := (hrest id).settled p c hv
    rw [Chronicle.observe, hv, hnow]
    have htime : (Timeline.move machinery t x).state.fleet.now =
        (stir machinery t x).state.now := hnow
    dsimp only
    rw [htime]
    exact hsettled
  · rw [Chronicle.observe, hv]
    refine h.unborn id ?_
    cases hold : t.state.fleet.view? id with
    | none => rfl
    | some y =>
      have hle := size_later ((Later.refl (m := machinery) (t := t)).stir x).settle
      obtain ⟨p, c, hborn⟩ := (hrest id).orderly.paired.view
        (Nat.lt_of_lt_of_le (Fleet.lt_of_view hold) hle)
      rw [hv] at hborn
      cases hborn

theorem Faithful.play {ch : ProcessId → Chronicle} (h : Faithful t ch)
    (moves : List (Move Command)) :
    Faithful (play machinery t moves) fun id => chronicle id t (ch id) moves := by
  induction moves generalizing t ch with
  | nil => exact h
  | cons x moves ih => exact ih (h.move x)

theorem faithful_afresh (s : Session) (w : System) (others : List Birth) :
    Faithful { state := s.afresh w others } fun _ => {} := by
  let bare : System := { w with table := [], agenda := [], children := #[], endings := #[] }
  have hbears : System.Proceeds Child.Stays bare (others.foldl System.bear bare) :=
    System.proceeds_foldl System.proceeds_bear others bare
  have hlisted : bare.Listed := by simp [bare, System.Listed, System.exitCode?]
  have hupcoming : bare.Upcoming := by simp [bare, System.Upcoming]
  have hnone : ∀ id, (s.afresh w others).fleet.view? id = none := fun id => rfl
  refine ⟨⟨⟨hbears.size, fun id p hp => ?_⟩, hbears.listed hlisted, hbears.upcoming hupcoming⟩,
    fun task x hx => ?_, fun id p c hv => ?_, fun _ _ => rfl⟩
  · cases hp
  · cases hx
  · rw [hnone] at hv
    cases hv

/-- The log of every process is exactly the output of its program, whatever else goes on in the
session: it closes when the ends of the shell and of the pipe say so, until then it holds the lines
that have been ended, and at last the lines of all that came in time. With echo each of these lines
has been reported once, in the order of the log. -/
theorem log_is_output (s : Session) (w : System) (others : List Birth)
    (moves : List (Move Command)) :
    let start : Timeline Session Activity Result := { state := s.afresh w others }
    let after := play machinery start moves
    (∀ id p, after.state.fleet.process? id = some p →
      (chronicle id start {} moves).Foretells p.drainLimit after.state.now p.log) ∧
    ∃ said, after.state.fleet.Echoed said := by
  intro start after
  have hfaithful : Faithful after fun id => chronicle id start {} moves :=
    (faithful_afresh s w others).play moves
  refine ⟨fun id p hp => ?_, ?_⟩
  · obtain ⟨c, hv⟩ := hfaithful.orderly.paired.of_process hp
    exact (hfaithful.settled id p c hv).foretells
  · exact (audible_later (audible_afresh s w others) (Later.refl.play moves)).1

/-- Two programs at once: the pipe of the first is held open after its shell has ended, and a line
of the second is cut between a carriage return and its line feed. -/
theorem log_is_output_of_two :
    let first : Program :=
      { shell := { pid := 100, ppid := 1, pgid := 100 }, holdsPipe := true
        events := [(3, .output [97, 10, 98]), (5, .exit 0), (9, .output [99, 10]),
          (1000000007, .output [100, 10])] }
    let second : Program :=
      { shell := { pid := 101, ppid := 1, pgid := 101 }
        events := [(4, .output [120, 13]), (9, .output [10, 121]), (20, .exit 1)] }
    let s : Session := { settings := { echoOutput := true } }
    let start : Timeline Session Activity Result :=
      { state := s.afresh { programs := [.program first, .program second] } [] }
    let moves : List (Move Command) :=
      [.begin (.act (.start "a" { command := "wrangler dev" } false)),
       .begin (.act (.start "b" { command := "wrangler tail" } false))] ++ List.replicate 8 .tick
    let after := play machinery start moves
    (∃ p q, after.state.fleet.process? 0 = some p ∧ after.state.fleet.process? 1 = some q ∧
      p.log.lines = #["a", "bc"] ∧ q.log.lines = #["x", "y"] ∧
      (chronicle 0 start {} moves).Foretells p.drainLimit after.state.now p.log ∧
      (chronicle 1 start {} moves).Foretells q.drainLimit after.state.now q.log) ∧
    (chronicle 0 start {} moves).logEnd = some 1000000005 ∧
    (chronicle 1 start {} moves).logEnd = some 20 := by
  intro first second s start moves after
  obtain ⟨hlogs, -⟩ := log_is_output s { programs := [.program first, .program second] } [] moves
  have hlines : (after.state.fleet.process? 0).map (·.log.lines) = some #["a", "bc"] ∧
      (after.state.fleet.process? 1).map (·.log.lines) = some #["x", "y"] := by decide +kernel
  have hends : (chronicle 0 start {} moves).logEnd = some 1000000005 ∧
      (chronicle 1 start {} moves).logEnd = some 20 := by decide +kernel
  obtain ⟨p, hp, hlp⟩ := Option.map_eq_some_iff.mp hlines.1
  obtain ⟨q, hq, hlq⟩ := Option.map_eq_some_iff.mp hlines.2
  subst after moves start s second first
  exact ⟨⟨p, q, hp, hq, hlp, hlq, hlogs 0 p hp, hlogs 1 q hq⟩, hends⟩

/-- What comes at the very moment at which reading the pipe fails, but before it does, is recorded:
the log does not end with what came before that moment. -/
theorem log_includes_moment_of_failure :
    let program : Program :=
      { shell := { pid := 100, ppid := 1, pgid := 100 }
        events := [(13, .output [97, 10]), (13, .readError "x"), (23, .exit 0)] }
    let start : Timeline Session Activity Result :=
      { state := ({} : Session).afresh { programs := [.program program] } [] }
    let moves : List (Move Command) :=
      [.begin (.act (.start "h" { command := "wrangler dev" } false)), .tick, .tick]
    let after := play machinery start moves
    let ch := chronicle 0 start {} moves
    ∃ p, after.state.fleet.process? 0 = some p ∧ p.reader = .failed "[Errno 5] x" ∧
      ch.pipeEnd = some 13 ∧ ch.logEnd = some 23 ∧ p.log.closed = true ∧
      Handler.decode .replace .utf8 (((ch.chunks.filter (·.1 < 13)).map (·.2)).flatten) = .ok [] ∧
      p.log.lines.toList ≠ splitLines [] := by
  intro program start moves after ch
  have hprocess : (after.state.fleet.process? 0).map
      (fun p => (p.reader, p.log.closed, p.log.lines.toList)) =
        some (.failed "[Errno 5] x", true, ["a"]) := by decide +kernel
  have hends : ch.pipeEnd = some 13 ∧ ch.logEnd = some 23 ∧ ch.chunks = [(13, [97, 10])] := by
    decide +kernel
  obtain ⟨p, hp, hfound⟩ := Option.map_eq_some_iff.mp hprocess
  obtain ⟨hreader, hclosed, hlines⟩ :
      p.reader = .failed "[Errno 5] x" ∧ p.log.closed = true ∧ p.log.lines.toList = ["a"] := by
    simpa using hfound
  refine ⟨p, hp, hreader, hends.1, hends.2.1, hclosed, ?_, ?_⟩
  · rw [hends.2.2]
    decide +kernel
  · rw [hlines]
    decide

end Session

end Overseer
