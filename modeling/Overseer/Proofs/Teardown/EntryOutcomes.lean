import Overseer.Proofs.Teardown.TreeCalls

/-!
# Teardowns

What becomes of a teardown and of the entries it has taken, whatever else goes on in the session. No
entry is lost and none is handed to two teardowns (`teardown_accounts_for_entries`); a failure to
end one tree is reported, and stops neither the other calls nor the teardown
(`teardown_contains_failures`). But a teardown that is cancelled makes no further attempt, and its
entries are not tracked any more (`cancelled_teardown_forgets`). -/

namespace Overseer

open Overseer.Tree Number World Timeline

namespace Session

def errorsIn (turn : Session × Session) : List Note :=
  turn.2.fleet.scene.journal.errors.drop turn.1.fleet.scene.journal.errors.length

/-- What has come of a teardown, by what its calls have come to and which errors it has reported. -/
inductive Conducting (calls : List TreeCall) (f : Fleet) (errors : List Note) :
    Task Activity Result → Prop where
  | going {leaving entries} : List.Forall₂ (TreeCall.Serves f) calls entries → errors = [] →
      Conducting calls f errors (.pending (.act (.teardown leaving ⟨entries⟩)))
  | answered {time answer} : (∀ c ∈ calls, c.Over f) →
    errors = calls.filterMap TreeCall.complaint? →
      Conducting calls f errors (.ended time (.result (.ok answer)))
  | cancelled {time} : errors = [] → Conducting calls f errors (.ended time .cancelled)

variable {s : Session} {w : System} {others : List Birth} {t u : Timeline Session Activity Result}
  {calls : List TreeCall} {f : Fleet} {errors : List Note} {task : Task Activity Result}

theorem Conducting.later (h : Conducting calls t.state.fleet errors task)
    (hlater : Later machinery t u) : Conducting calls u.state.fleet errors task := by
  cases h with
  | going hserve he =>
    refine .going (hserve.imp fun c entry hc => hc.mono ?_ ?_) he
    · exact fun hp => exists_later hp hlater
    · exact fun code hcode => exitCode?_later hcode hlater
  | answered hover he =>
    refine .answered (fun c hc => (hover c hc).imp_left ?_) he
    rintro ⟨hp, code, hcode⟩
    exact ⟨hp, code, exitCode?_later hcode hlater⟩
  | cancelled he => exact .cancelled he

theorem Conducting.cancel {errand : Errand Activity} {time : Instant}
    (h : Conducting calls f errors (.pending errand)) :
    Conducting calls f errors (.ended time .cancelled) := by
  cases h with
  | going _ he => exact .cancelled he

/-- When a teardown goes on, its calls do; and when all is over, the failures are reported. -/
theorem conducting_poll {entries : List (Tracked × EntryEnd)}
    (h : List.Forall₂ (TreeCall.Serves f) calls entries) (s : Session) (leaving : Bool)
    (now : Instant) :
    let going := s.goOnTeardown leaving (Teardown.poll ⟨entries⟩ f)
    let went := TreeCall.goOnAll calls f.scene.system
    going.1.system = went.1 ∧ going.1.fleet.registry = f.registry ∧
      ∃ errors, going.1.fleet.scene.journal.errors = f.scene.journal.errors ++ errors ∧
        Conducting went.2 going.1.fleet errors (.ofProgress now going.2) := by
  obtain ⟨hsystem, haside, hserve⟩ := TreeCall.serve_pollEntries h
  have hcomplaints := TreeCall.complaints_eq hserve
  unfold Teardown.poll
  rcases hpolled : Teardown.pollEntries f entries with ⟨g, after⟩
  rw [hpolled] at hsystem haside hserve hcomplaints
  dsimp only at hcomplaints ⊢
  split
  next hover =>
    refine ⟨hsystem, haside.registry, after.filterMap Teardown.failureNote?, ?_, .answered ?_ ?_⟩
    · have hall : ∀ note ∈ after.filterMap Teardown.failureNote?, note.level = .error := by
        rw [← hcomplaints]
        intro note hn
        obtain ⟨c, -, hc⟩ := List.mem_filterMap.mp hn
        exact TreeCall.level_complaint hc
      have hkept : (after.filterMap Teardown.failureNote?).filter (·.level == .error) =
          after.filterMap Teardown.failureNote? :=
        List.filter_eq_self.mpr fun note hn => by simpa using hall note hn
      refine (Journal.errors_add g.scene.journal _ _).trans ?_
      rw [hkept]
      exact congrArg (· ++ _) haside.errors
    · have hall : ∀ c ∈ (TreeCall.goOnAll calls f.scene.system).2, c.Over g :=
        TreeCall.over_of_all hserve hover
      exact hall
    · exact hcomplaints.symm
  · refine ⟨hsystem, haside.registry, [], ?_, .going hserve rfl⟩
    rw [List.append_nil]
    exact haside.errors

def freshCalls (s : Session) (entries : List Tracked) : List TreeCall :=
  entries.map (TreeCall.fresh s.termLimit s.killLimit)

theorem entries_freshCalls (s : Session) (entries : List Tracked) :
    (s.freshCalls entries).map (·.entry) = entries := by
  unfold freshCalls
  rw [List.map_map]
  exact List.map_id entries

structure Conducted (begin : Timeline Session Activity Result) (calls : List TreeCall)
    (turns : List (Session × Session)) (t : Timeline Session Activity Result)
    (task : Task Activity Result) : Prop where
  later : Later machinery begin t
  conducts : TreeCall.Conducts calls turns
  registry : ∀ turn ∈ turns.tail, turn.2.fleet.registry = turn.1.fleet.registry
  stands : Conducting (TreeCall.callsIn calls turns) t.state.fleet (turns.flatMap errorsIn) task

theorem errorsIn_of_append {a b : Session}
    (h : b.fleet.scene.journal.errors = a.fleet.scene.journal.errors ++ errors) :
    errorsIn (a, b) = errors := by
  unfold errorsIn
  rw [h, List.drop_left]

/-- A teardown goes on as it has begun, whatever else goes on in the session. -/
theorem upheld_conducted (begin : Timeline Session Activity Result) (id : TaskId)
    (calls : List TreeCall) :
    Upheld machinery id fun turns t task => turns ≠ [] ∧ Conducted begin calls turns t task where
  still hlater _ h :=
    ⟨h.1, h.2.later.trans hlater, h.2.conducts, h.2.registry, h.2.stands.later hlater⟩
  tick _ _ _ h :=
    ⟨h.1, h.2.later.advance _, h.2.conducts, h.2.registry, h.2.stands.later (.advance _ .refl)⟩
  cancel h := ⟨h.1, h.2.later, h.2.conducts, h.2.registry, h.2.stands.cancel⟩
  poll {turns t errand} htask h := by
    obtain ⟨hne, hlater, hconducts, hregistry, hstands⟩ := h
    have hstate := (pollTask_pending (m := machinery) htask).1
    have hnext : Later machinery begin (pollTask machinery t id) := hlater.poll id
    generalize herrors : turns.flatMap errorsIn = before at hstands
    cases hstands with
    | @going leaving entries hserve he =>
      obtain ⟨hsystem, hkept, errors, hadded, hconducting⟩ :=
        conducting_poll hserve t.state leaving
          (machinery.now (t.state.goOnTeardown leaving (Teardown.poll ⟨entries⟩ t.state.fleet)).1)
      refine ⟨by simp, hnext, hconducts.append ?_, ?_, ?_⟩
      · rw [hstate]
        exact hsystem.symm
      · rw [List.tail_append_of_ne_nil hne]
        intro turn hturn
        rcases List.mem_append.mp hturn with hturn | hturn
        · exact hregistry turn hturn
        · rw [List.mem_singleton.mp hturn, hstate]
          exact hkept
      · rw [TreeCall.callsIn_append, List.flatMap_append, herrors, he, List.nil_append, hstate,
          List.flatMap_singleton]
        exact (errorsIn_of_append hadded).symm ▸ hconducting

theorem start_teardown {command : Command} (h : command = .teardown ∨ command = .leave)
    (peers : List Activity) (s : Session) : ∃ leaving, machinery.start peers command s =
      s.goOnTeardown leaving (Teardown.start s.termLimit s.killLimit s.fleet) := by
  rcases h with rfl | rfl
  · exact ⟨false, rfl⟩
  · exact ⟨true, rfl⟩

theorem conducting_start (h : s.fleet.Registered) (leaving : Bool) (now : Instant) :
    let going := s.goOnTeardown leaving (Teardown.start s.termLimit s.killLimit s.fleet)
    let went := TreeCall.goOnAll (s.freshCalls s.fleet.registry.entries) s.system
    going.1.system = went.1 ∧
      ∃ errors, going.1.fleet.scene.journal.errors = s.fleet.scene.journal.errors ++ errors ∧
        Conducting went.2 going.1.fleet errors (.ofProgress now going.2) := by
  have hbegun (f : Fleet) (hf : f.processes = s.fleet.processes) (entries : List Tracked)
      (hentries : ∀ entry ∈ entries, entry ∈ s.fleet.registry.entries) :
      List.Forall₂ (TreeCall.Serves f) (s.freshCalls entries) (entries.map fun entry =>
        (entry, EntryEnd.ending
          { pid := entry.pid, termLimit := s.termLimit, killLimit := s.killLimit })) := by
    unfold freshCalls
    rw [List.forall₂_map_left_iff, List.forall₂_map_right_iff, List.forall₂_same]
    intro entry he
    obtain ⟨p, hp, -⟩ := h.known entry (hentries entry he)
    have hknown : f.process? entry.process = some p := by
      unfold Fleet.process? at hp ⊢
      rwa [hf]
    exact ⟨rfl, Option.isSome_iff_exists.mpr ⟨p, hknown⟩, .ending rfl⟩
  unfold Teardown.start
  split
  next hnone =>
    rw [hnone]
    refine ⟨rfl, [], (List.append_nil _).symm, .answered ?_ rfl⟩
    simp [freshCalls, TreeCall.goOnAll]
  next hsome =>
    obtain ⟨hsystem, -, errors, hadded, hconducting⟩ :=
      conducting_poll (hbegun ({ s.fleet with registry := {} }.report _) rfl _ fun _ he => he) s
        leaving now
    refine ⟨hsystem, errors, hadded.trans (congrArg (· ++ errors) (errors_report_one _ ?_)),
      hconducting⟩
    intro hlevel
    cases hlevel

def Proceeding (begin : Timeline Session Activity Result) (turns : List (Session × Session))
    (t : Timeline Session Activity Result) (task : Task Activity Result) : Prop :=
  turns ≠ [] ∧
    Conducted begin (begin.state.freshCalls begin.state.fleet.registry.entries) turns t task

theorem proceeding_launch {before : Timeline Session Activity Result} {step : Step Command}
    {command : Command} (hbefore : Later machinery { state := s.afresh w others } before)
    (hcommand : command = .teardown ∨ command = .leave) (hstep : step.command? = some command) :
    Holding (Proceeding before) before.tasks.size
      [(before.state, (launch machinery before step).state)] (launch machinery before step) := by
  obtain ⟨leaving, hstart⟩ := start_teardown hcommand before.activities before.state
  obtain ⟨hstate, htask, -⟩ := launch_command (m := machinery) hstep before
  rw [hstart] at hstate htask
  obtain ⟨hsystem, errors, hadded, hconducting⟩ := conducting_start (s := before.state)
    (registered_later hbefore) leaving (machinery.now _)
  refine ⟨_, htask, List.cons_ne_nil _ _, .launch step .refl, ⟨?_, trivial⟩, by simp, ?_⟩
  · rw [hstate]
    exact hsystem.symm
  · rw [hstate, List.flatMap_singleton]
    exact (errorsIn_of_append hadded).symm ▸ hconducting

theorem conducted_play {before : Timeline Session Activity Result} {step : Step Command}
    {command : Command} (hbefore : Later machinery { state := s.afresh w others } before)
    (hcommand : command = .teardown ∨ command = .leave) (hstep : step.command? = some command)
    (moves : List (Move Command)) :
    let after := play machinery (move machinery before (.begin step)) moves
    let entries := before.state.fleet.registry.entries
    let turns := turnsOfStep machinery before step moves
    (launch machinery before step).state.fleet.registry = {} ∧
      (∀ c ∈ TreeCall.callsIn (before.state.freshCalls entries) turns,
        c.Begun before.state.termLimit before.state.killLimit before.state.now) ∧
      ∃ task, after.tasks[before.tasks.size]? = some task ∧
        Conducted before (before.state.freshCalls entries) turns after task := by
  intro after entries turns
  refine ⟨?_, TreeCall.begun_callsIn_fresh _ _ entries _ _, ?_⟩
  · obtain ⟨leaving, hstart⟩ := start_teardown hcommand before.activities before.state
    rw [(launch_command (m := machinery) hstep before).1, hstart]
    exact Teardown.registry_start _ _ _
  · obtain ⟨task, hafter, -, hconducted⟩ := (upheld_conducted before before.tasks.size _).step
      machinery_punctual (proceeding_launch hbefore hcommand hstep) moves
    exact ⟨task, hafter, hconducted⟩

/-- No entry is lost and none is ended by two teardowns, whatever goes on in a session. When a
teardown begins, all entries leave the registry, and for each of them one call that ends its tree
begins at that moment, whatever has become of its process; after that the teardown does nothing but
let these calls go on, and leaves the registry alone. At every time, each entry that has ever been
made is still tracked, or has been taken off, or has been replaced by one for a different process
under the same pid, or has been handed to one teardown; and it is so once. -/
theorem teardown_accounts_for_entries {t : Timeline (Session × Ledger) Activity Result}
    {step : Step Command} {command : Command}
    (ht : Later ledgered { state := (s.afresh w others, {}) } t)
    (hcommand : command = .teardown ∨ command = .leave) (hstep : step.command? = some command)
    (moves : List (Move Command)) :
    let before := t.plain
    let entries := before.state.fleet.registry.entries
    let launched := launch ledgered t step
    let after := play ledgered (move ledgered t (.begin step)) moves
    let turns := turnsOfStep machinery before step moves
    let calls := TreeCall.callsIn (before.state.freshCalls entries) turns
    launched.plain = launch machinery before step ∧
      after.plain = play machinery (move machinery before (.begin step)) moves ∧
      -- at the moment at which the teardown begins
      launched.plain.state.fleet.registry = {} ∧
      launched.state.2.handed = t.state.2.handed ++ [entries] ∧
      calls.map (·.entry) = entries ∧
      (∀ c ∈ calls, c.Begun before.state.termLimit before.state.killLimit before.state.now) ∧
      -- after that
      TreeCall.Conducts (before.state.freshCalls entries) turns ∧
      (∀ turn ∈ turns.tail, turn.2.fleet.registry = turn.1.fleet.registry) ∧
      -- at every time
      t.state.2.Balanced before.state.fleet.registry ∧
      launched.state.2.Balanced launched.plain.state.fleet.registry ∧
      after.state.2.Balanced after.plain.state.fleet.registry ∧
      t.state.2.Extends launched.state.2 ∧ launched.state.2.Extends after.state.2 := by
  intro before entries launched after turns calls
  have hbefore : Later machinery { state := s.afresh w others } before := ht.plain
  have hlaunched : Later ledgered t launched := .launch step .refl
  have hafter : Later ledgered launched after := (Later.settle (m := ledgered) .refl).play moves
  have hbegins : launched.plain = launch machinery before step := plain_launch _ _ t step
  obtain ⟨hregistry, hbegun, task, -, hconducted⟩ :=
    conducted_play hbefore hcommand hstep moves
  have hfresh : Ledger.Balanced {} (s.afresh w others).fleet.registry := ⟨.refl _, nofun⟩
  have hstart : Later machinery { state := s.afresh w others }
      (Timeline.plain { state := (s.afresh w others, ({} : Ledger)) }) := .refl
  have hbalanced : ∀ {u}, Later ledgered t u → u.state.2.Balanced u.state.1.fleet.registry :=
    fun hu => balanced_later hstart hfresh (ht.trans hu)
  refine ⟨hbegins, ?_, hbegins ▸ hregistry, ?_, ?_, hbegun, hconducted.conducts,
    hconducted.registry, hbalanced .refl, hbalanced hlaunched, hbalanced (hlaunched.trans hafter),
    extends_later hlaunched, extends_later hafter⟩
  · exact (plain_play machinery accountant _ moves).trans
      (congrArg (play machinery · moves) (plain_move machinery accountant t (.begin step)))
  · obtain ⟨hstate, -⟩ := launch_command (m := ledgered) hstep t
    rw [hstate]
    rcases hcommand with rfl | rfl <;> rfl
  · exact (TreeCall.entries_callsIn _ _).trans (entries_freshCalls _ _)

/-- Two teardowns overlap: the second one begins while the first one still waits for a process that
does not end when it is asked to. Each has what was tracked when it began. -/
theorem teardown_accounts_for_overlap :
    let stubborn : Program := { shell := { pid := 100, ppid := 1, pgid := 100, onTerm := none } }
    let obedient : Program := { shell := { pid := 101, ppid := 1, pgid := 101 } }
    let start : Timeline (Session × Ledger) Activity Result :=
      { state := (({ termLimit := .ofDecimal 1 (-1) } : Session).afresh
          { programs := [.program stubborn, .program obedient] } [], {}) }
    let opening : List (Move Command) :=
      [.begin (.act (.start "first" { command := "wrangler dev" } true)),
       .begin (.background "one" (.act .teardown)),
       .begin (.act (.start "second" { command := "wrangler tail" } true))]
    let t := play ledgered start opening
    let moves := List.replicate 4 Move.tick
    let after := play ledgered (move ledgered t (.begin (.act .teardown))) moves
    t.plain.activities.length = 1 ∧ t.plain.state.fleet.registry.pids = [101] ∧
      after.plain.activities.length = 0 ∧ after.state.2.made.map (·.pid) = [100, 101] ∧
      after.state.2.handed.map (·.map (·.pid)) = [[100], [101]] ∧
      after.state.2.Balanced after.plain.state.fleet.registry := by
  intro stubborn obedient start opening t moves after
  have ht : Later ledgered start t := .play .refl opening
  have hstep : (Step.act Command.teardown).command? = some .teardown := rfl
  have hbegun : t.plain.activities.length = 1 ∧ t.plain.state.fleet.registry.pids = [101] := by
    decide +kernel
  have hover : after.plain.activities.length = 0 ∧ after.state.2.made.map (·.pid) = [100, 101] ∧
      after.state.2.handed.map (·.map (·.pid)) = [[100], [101]] := by
    decide +kernel
  subst after moves t
  obtain ⟨-, -, -, -, -, -, -, -, -, -, hbalanced, -⟩ :=
    teardown_accounts_for_entries ht (.inl rfl) hstep (List.replicate 4 .tick)
  exact ⟨hbegun.1, hbegun.2, hover.1, hover.2.1, hover.2.2, hbalanced⟩

/-- When a teardown is over it has answered, whatever has come of its calls, and each of them has
been over. For each call that has failed an error has been reported, in the order of the entries,
and no other error. Where a call has succeeded, the process of the entry has exited and its log is
closed. A teardown that is not over is under way, or has been cancelled. -/
theorem teardown_contains_failures {before : Timeline Session Activity Result} {step : Step Command}
    {command : Command} (hbefore : Later machinery { state := s.afresh w others } before)
    (hcommand : command = .teardown ∨ command = .leave) (hstep : step.command? = some command)
    (moves : List (Move Command)) :
    let after := play machinery (move machinery before (.begin step)) moves
    let entries := before.state.fleet.registry.entries
    let turns := turnsOfStep machinery before step moves
    let calls := TreeCall.callsIn (before.state.freshCalls entries) turns
    calls.map (·.entry) = entries ∧ TreeCall.Conducts (before.state.freshCalls entries) turns ∧
      ∃ task, after.tasks[before.tasks.size]? = some task ∧
        (task.isPending = true ∨ (∃ time, task = .ended time .cancelled) ∨
          ∃ time answer, task = .ended time (.result (.ok answer)) ∧
            turns.flatMap errorsIn = calls.filterMap TreeCall.complaint? ∧
            ∀ c ∈ calls, ∃ result, c.progress = .done result ∧
              (result = .ok () → after.state.HasExited c.entry.process)) := by
  intro after entries turns calls
  obtain ⟨-, -, task, htask, hconducted⟩ := conducted_play hbefore hcommand hstep moves
  refine ⟨(TreeCall.entries_callsIn _ _).trans (entries_freshCalls _ _), hconducted.conducts, task,
    htask, ?_⟩
  have hconsistent : after.state.fleet.Each Supervised.Consistent :=
    consistent_later (hbefore.trans hconducted.later)
  generalize herrors : turns.flatMap errorsIn = errors
  have hstands : Conducting calls after.state.fleet errors task := herrors ▸ hconducted.stands
  cases hstands with
  | going => exact .inl rfl
  | cancelled => exact .inr (.inl ⟨_, rfl⟩)
  | answered hover he =>
    refine .inr (.inr ⟨_, _, rfl, he, fun c hc => ?_⟩)
    rcases hover c hc with ⟨hp, code, hcode⟩ | ⟨failure, hp⟩
    · exact ⟨.ok (), hp, fun _ => hasExited_of_exitCode? hconsistent hcode⟩
    · exact ⟨.error failure, hp, fun hok => by cases hok⟩

/-- Of three trees one is ended, one outlives its killing, and of one nothing can be told. -/
theorem teardown_contains_two_failures :
    let shells : List ProcessSpec :=
      [{ pid := 100, ppid := 1, pgid := 100 },
       { pid := 101, ppid := 1, pgid := 101, onTerm := none, onKill := none },
       { pid := 102, ppid := 1, pgid := 102, obstacles := { status := some .denied } }]
    let limit : Seconds := .ofDecimal 1 (-2)
    let start : Timeline Session Activity Result :=
      { state := ({ termLimit := limit, killLimit := limit } : Session).afresh
          { programs := shells.map fun shell => .program { shell } } [] }
    let opening : List (Move Command) := shells.map fun shell =>
      .begin (.act (.start (toString shell.pid) { command := "wrangler dev" } true))
    let before := play machinery start opening
    let moves := List.replicate 3 Move.tick
    let after := play machinery (move machinery before (.begin (.act .teardown))) moves
    let turns := turnsOfStep machinery before (.act .teardown) moves
    after.tasks[before.tasks.size]?.any isAnswered = true ∧
      turns.flatMap errorsIn =
        [{ level := .error, origin := .registry
           text := "Failed to kill process pid=101 command='wrangler dev': " ++
             "Failed to kill process tree pid=101: 1 process(es) still alive after kill" },
         { level := .error, origin := .registry
           text := "Failed to kill process pid=102 command='wrangler dev': (pid=102)" }] ∧
      after.state.HasExited 0 := by
  intro shells limit start opening before moves after turns
  have hbefore : Later machinery start before := .play .refl opening
  have hstep : (Step.act Command.teardown).command? = some .teardown := rfl
  have hanswered : after.tasks[before.tasks.size]?.any isAnswered = true := by decide +kernel
  have herrors : turns.flatMap errorsIn =
      [{ level := .error, origin := .registry
         text := "Failed to kill process pid=101 command='wrangler dev': " ++
           "Failed to kill process tree pid=101: 1 process(es) still alive after kill" },
       { level := .error, origin := .registry
         text := "Failed to kill process pid=102 command='wrangler dev': (pid=102)" }] := by
    decide +kernel
  let calls := TreeCall.callsIn (before.state.freshCalls before.state.fleet.registry.entries) turns
  have hfirst : (calls.map fun c => (c.entry.process, c.progress)).head? =
      some (0, .done (.ok ())) := by
    decide +kernel
  obtain ⟨c, hc, hp⟩ := List.mem_map.mp (List.mem_of_mem_head? hfirst)
  refine ⟨hanswered, herrors, ?_⟩
  subst calls turns after moves before
  obtain ⟨-, -, task, htask, hcome⟩ :=
    teardown_contains_failures hbefore (.inl rfl) hstep (List.replicate 3 .tick)
  rw [htask] at hanswered
  obtain ⟨time, answer, rfl⟩ := isAnswered_iff.mp hanswered
  obtain hpending | ⟨time, hcancelled⟩ | ⟨-, -, -, -, hcalls⟩ := hcome
  · cases hpending
  · cases hcancelled
  · obtain ⟨hprocess, hprogress⟩ := Prod.mk.inj hp
    obtain ⟨result, hdone, hexited⟩ := hcalls c hc
    rw [← hprocess]
    exact hexited (Progress.done.inj (hdone.symm.trans hprogress))

/-- A teardown that has been cancelled is over for good: it makes no further attempt. What it has
taken is not tracked any more, for all that is tracked later on has been tracked since it began. -/
theorem cancelled_teardown_forgets {before : Timeline Session Activity Result} {step : Step Command}
    {command : Command} {moves : List (Move Command)} {time : Instant}
    (hbefore : Later machinery { state := s.afresh w others } before)
    (hcommand : command = .teardown ∨ command = .leave) (hstep : step.command? = some command)
    (hcancelled : (play machinery (move machinery before (.begin step)) moves).tasks[
      before.tasks.size]? = some (.ended time .cancelled))
    (more : List (Move Command)) :
    let after := play machinery (move machinery before (.begin step)) (moves ++ more)
    let since := play ledgered (settle ledgered ((launch machinery before step).recording {}))
      (moves ++ more)
    turnsOfStep machinery before step (moves ++ more) = turnsOfStep machinery before step moves ∧
      since.plain = after ∧
      since.state.2.Balanced after.state.fleet.registry ∧
      ∀ entry ∈ after.state.fleet.registry.entries, entry ∈ since.state.2.made := by
  intro after since
  obtain ⟨hregistry, -⟩ := conducted_play hbefore hcommand hstep moves
  have hplain : since.plain = after := by
    refine (plain_play machinery accountant _ _).trans (congrArg (play machinery · _) ?_)
    exact plain_settle machinery accountant _
  have hbegun : Ledger.Balanced {} (launch machinery before step).state.fleet.registry := by
    rw [hregistry]
    exact ⟨.refl _, nofun⟩
  have hbalanced : since.state.2.Balanced after.state.fleet.registry := by
    rw [← hplain]
    exact balanced_later (t := (launch machinery before step).recording {})
      (hbefore.launch step) hbegun ((Later.settle (m := ledgered) .refl).play _)
  refine ⟨turnsOfStep_append_of_ended machinery_punctual hcancelled rfl more, hplain, hbalanced,
    fun entry he => ?_⟩
  exact hbalanced.all.mem_iff.mpr (List.mem_append_left _ he)

def cancelledAt? : Task Activity Result → Option Instant
  | .ended time .cancelled => some time
  | _ => none

theorem cancelledAt?_eq_some_iff {time : Instant} :
    cancelledAt? task = some time ↔ task = .ended time .cancelled := by
  unfold cancelledAt?
  split <;> simp_all

/-- A teardown is cancelled while it waits for the end of a tree that it has asked to end, and
another process is tracked after that. -/
theorem cancelled_teardown_forgets_but_newcomer :
    let stubborn : Program := { shell := { pid := 100, ppid := 1, pgid := 100, onTerm := none } }
    let obedient : Program := { shell := { pid := 101, ppid := 1, pgid := 101 } }
    let start : Timeline Session Activity Result :=
      { state := ({} : Session).afresh { programs := [.program stubborn, .program obedient] } [] }
    let opening : List (Move Command) :=
      [.begin (.act (.start "first" { command := "wrangler dev" } true))]
    let before := play machinery start opening
    let step : Step Command := .background "down" (.act .teardown)
    let moves : List (Move Command) :=
      [.begin (.pause (Instant.ofMillis 10)), .tick, .begin (.cancel "down")]
    let more : List (Move Command) :=
      [.begin (.act (.start "second" { command := "wrangler tail" } true)), .tick]
    let after := play machinery (move machinery before (.begin step)) (moves ++ more)
    let since := play ledgered (settle ledgered ((launch machinery before step).recording {}))
      (moves ++ more)
    turnsOfStep machinery before step (moves ++ more) = turnsOfStep machinery before step moves ∧
      after.state.fleet.registry.pids = [101] ∧
      ∀ entry ∈ after.state.fleet.registry.entries, entry ∈ since.state.2.made := by
  intro stubborn obedient start opening before step moves more after since
  have hbefore : Later machinery start before := .play .refl opening
  have hstep : step.command? = some .teardown := rfl
  have hpids : after.state.fleet.registry.pids = [101] := by decide +kernel
  have hcancelled : (play machinery (move machinery before (.begin step)) moves).tasks[
      before.tasks.size]?.bind cancelledAt? = some (Instant.ofMillis 10) := by
    decide +kernel
  obtain ⟨task, htask, htime⟩ := Option.bind_eq_some_iff.mp hcancelled
  obtain rfl := cancelledAt?_eq_some_iff.mp htime
  subst since after
  obtain ⟨hturns, -, -, hmade⟩ :=
    cancelled_teardown_forgets hbefore (.inl rfl) hstep htask more
  exact ⟨hturns, hpids, hmade⟩

/-- A teardown is cancelled while it waits for the end of a tree that it has asked to end. The call
that was to end the tree is not over and the tree lives on, but its entry is not tracked any more.
-/
theorem cancelled_teardown_leaves_tree :
    let program : Program := { shell := { pid := 100, ppid := 1, pgid := 100, onTerm := none } }
    let start : Timeline Session Activity Result :=
      { state := ({} : Session).afresh { programs := [.program program] } [] }
    let before := play machinery start
      [.begin (.act (.start "h" { command := "wrangler dev" } true))]
    let step : Step Command := .background "down" (.act .teardown)
    let moves : List (Move Command) :=
      [.begin (.pause (Instant.ofMillis 10)), .tick, .begin (.cancel "down")]
    let after := play machinery (move machinery before (.begin step)) moves
    let calls := TreeCall.callsIn (before.state.freshCalls before.state.fleet.registry.entries)
      (turnsOfStep machinery before step moves)
    after.tasks[before.tasks.size]?.bind cancelledAt? = some (Instant.ofMillis 10) ∧
      before.state.fleet.registry.pids = [100] ∧
      (calls.filter (·.isGoing)).map (·.entry) = before.state.fleet.registry.entries ∧
      after.state.system.table.map (fun x => (x.pid, x.zombie)) = [(100, false)] ∧
      after.state.fleet.registry.entries = [] := by
  decide +kernel

end Session

end Overseer
