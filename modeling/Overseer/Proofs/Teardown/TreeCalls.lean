import Mathlib.Data.List.Forall2
import Overseer.Proofs.Registry.EntryLedger
import Overseer.Proofs.Session.EndCallers
import Overseer.Proofs.Tree.Leftovers

/-!
# What a teardown does

A teardown makes one call that ends a tree (`TreeCall`) for each entry it has taken, and nothing but
these calls does it do to the system: each time the teardown goes on, so do the calls that are not
over, in the order of the entries (`Conducts`). What the teardown knows of an entry is how far its
call has come and, where that has succeeded, whether the end of the process has been reported
(`Matches`).
-/

namespace Overseer

open Overseer.Tree Number Text World Timeline

namespace Tree.Termination

def goOn (t : Termination) (w : System) : System × Progress Termination Result :=
  let (s, progress) := t.poll { system := w }
  (s.system, progress)

def SameOutcome (x y : Scene × Progress Termination Result) : Prop :=
  x.1.system = y.1.system ∧ x.2 = y.2

variable {s u : Scene} (h : s.system = u.system) (t : Termination) (alive : List ProcessRef)
  (deadline : Option Instant)

include h

theorem lookAtKilled_congr :
    SameOutcome (t.lookAtKilled alive deadline s) (t.lookAtKilled alive deadline u) := by
  have hnow : s.now = u.now := congrArg System.now h
  unfold lookAtKilled
  rw [h, hnow]
  cases survivors u.system alive with
  | error failure => exact ⟨h, rfl⟩
  | ok left =>
    cases left with
    | nil => exact ⟨h, rfl⟩
    | cons p ps =>
      dsimp only
      split
      · exact ⟨h, rfl⟩
      · exact ⟨h, rfl⟩

theorem kill_congr : SameOutcome (t.kill alive s) (t.kill alive u) := by
  obtain ⟨w, j⟩ := s
  obtain ⟨_, k⟩ := u
  obtain rfl : w = _ := h
  unfold kill
  dsimp only
  rw [now_signalAll, now_signalAll]
  refine lookAtKilled_congr ?_ t alive (t.killLimit.deadline w.now)
  rw [system_signalAll, system_signalAll]
  rfl

theorem lookAtAsked_congr :
    SameOutcome (t.lookAtAsked alive deadline s) (t.lookAtAsked alive deadline u) := by
  have hnow : s.now = u.now := congrArg System.now h
  unfold lookAtAsked
  rw [h, hnow]
  cases survivors u.system alive with
  | error failure => exact ⟨h, rfl⟩
  | ok left =>
    cases left with
    | nil => exact ⟨h, rfl⟩
    | cons p ps =>
      dsimp only
      split
      · exact kill_congr h t _
      · exact ⟨h, rfl⟩

theorem start_congr : SameOutcome (t.start s) (t.start u) := by
  obtain ⟨w, j⟩ := s
  obtain ⟨_, k⟩ := u
  obtain rfl : w = _ := h
  unfold start
  rcases members w t.pid with ⟨_ | found, notes⟩
  · exact ⟨rfl, rfl⟩
  · cases found with
    | nil => exact ⟨rfl, rfl⟩
    | cons p ps =>
      dsimp only
      rw [now_signalAll, now_signalAll]
      refine lookAtAsked_congr ?_ t (p :: ps) (t.termLimit.deadline w.now)
      rw [system_signalAll, system_signalAll]
      rfl

theorem poll_congr : SameOutcome (t.poll s) (t.poll u) := by
  have hnow : s.now = u.now := congrArg System.now h
  unfold poll
  cases t.vigil with
  | none => exact start_congr h t
  | some v =>
    dsimp only
    unfold keepVigil
    rw [hnow]
    split
    · cases v.stage with
      | asked => exact kill_congr h t _
      | killed => exact ⟨h, rfl⟩
    · split
      · cases v.stage with
        | asked => exact lookAtAsked_congr h t _ _
        | killed => exact lookAtKilled_congr h t _ _
      · exact ⟨h, rfl⟩

end Tree.Termination

namespace Journal

def errors (j : Journal) : List Note := (j.toList.map (·.note)).filter (·.level == .error)

theorem errors_add (j : Journal) (now : Instant) (notes : List Note) :
    (j.add now notes).errors = j.errors ++ notes.filter (·.level == .error) := by
  simp [errors, add, Function.comp_def]

end Journal

theorem errors_report (s : Scene) {notes : List Note} (h : ∀ note ∈ notes, note.level ≠ .error) :
    (s.report notes).journal.errors = s.journal.errors := by
  have hnone : notes.filter (·.level == .error) = [] :=
    List.filter_eq_nil_iff.mpr fun note hn => by simpa using h note hn
  exact (Journal.errors_add _ _ _).trans (by rw [hnone, List.append_nil])

theorem errors_report_one (s : Scene) {note : Note} (h : note.level ≠ .error) :
    (s.report [note]).journal.errors = s.journal.errors :=
  errors_report s fun _ hn => List.mem_singleton.mp hn ▸ h

namespace Tree

theorem errors_signalGroup (s : Scene) (pgid : Int) (signal : Signal) :
    (signalGroup s pgid signal).journal.errors = s.journal.errors := by
  unfold signalGroup
  rcases s.system.signalGroup pgid signal with ⟨system, outcome⟩
  dsimp only
  split
  · exact errors_report_one _ nofun
  · rfl
  · split
    · rfl
    · exact errors_report_one _ nofun

theorem errors_signalOne (signal : Signal) (s : Scene) (p : ProcessRef) :
    (signalOne signal s p).journal.errors = s.journal.errors := by
  unfold signalOne
  rcases s.system.signalProcess p signal with ⟨system, outcome⟩
  dsimp only
  split
  · rfl
  · rfl
  · exact errors_report_one _ nofun

theorem errors_signalAll (s : Scene) (pid : Int) (ps : List ProcessRef) (signal : Signal) :
    (signalAll s pid ps signal).journal.errors = s.journal.errors := by
  have hall : ∀ (ps : List ProcessRef) (s : Scene),
      (ps.foldl (signalOne signal) s).journal.errors = s.journal.errors := by
    intro ps
    induction ps with
    | nil => exact fun s => rfl
    | cons p ps ih => exact fun s => (ih _).trans (errors_signalOne signal s p)
  unfold signalAll
  refine (hall ps _).trans ?_
  split
  · rfl
  · exact errors_signalGroup s pid signal

theorem level_members (w : System) (pid : Int) :
    ∀ note ∈ (members w pid).2, note.level = .debug := by
  have hblind : ∀ note ∈ [blindNote pid pid], note.level = .debug := by
    intro note hn
    rw [List.mem_singleton.mp hn]
    rfl
  have hfamily : ∀ note ∈ (rootFamily w pid).2, note.level = .debug := by
    unfold rootFamily
    split
    · nofun
    · exact hblind
    · split
      · nofun
      · nofun
      · split
        · nofun
        · nofun
        · exact hblind
  unfold members
  split <;> rename_i hr <;> rw [hr] at hfamily
  · exact hfamily
  · exact hfamily

namespace Termination

theorem errors_giveUp (t : Termination) (alive : List ProcessRef) (s : Scene) :
    (t.giveUp alive s).1.journal.errors = s.journal.errors := by
  unfold giveUp
  refine errors_report_one s ?_
  nofun

theorem errors_lookAtKilled (t : Termination) (alive : List ProcessRef) (deadline : Option Instant)
    (s : Scene) : (t.lookAtKilled alive deadline s).1.journal.errors = s.journal.errors := by
  unfold lookAtKilled
  split
  · rfl
  · rfl
  · split
    · exact errors_giveUp t _ s
    · rfl

theorem errors_kill (t : Termination) (alive : List ProcessRef) (s : Scene) :
    (t.kill alive s).1.journal.errors = s.journal.errors :=
  (errors_lookAtKilled t alive _ _).trans
    ((errors_signalAll _ t.pid alive .kill).trans (errors_report_one s nofun))

theorem errors_lookAtAsked (t : Termination) (alive : List ProcessRef) (deadline : Option Instant)
    (s : Scene) : (t.lookAtAsked alive deadline s).1.journal.errors = s.journal.errors := by
  unfold lookAtAsked
  split
  · rfl
  · exact errors_report_one s nofun
  · split
    · exact errors_kill t _ s
    · rfl

theorem errors_start (t : Termination) (s : Scene) :
    (t.start s).1.journal.errors = s.journal.errors := by
  have hs : (s.report (members s.system t.pid).2).journal.errors = s.journal.errors :=
    errors_report s fun note hn he => nomatch (level_members s.system t.pid note hn).symm.trans he
  unfold start
  rcases hm : members s.system t.pid with ⟨found, notes⟩
  rw [hm] at hs
  dsimp only
  split
  · exact hs
  · refine (errors_report_one _ ?_).trans hs
    nofun
  · refine (errors_lookAtAsked t _ _ _).trans ((errors_signalAll _ t.pid _ .term).trans ?_)
    refine (errors_report_one _ ?_).trans hs
    nofun

theorem errors_poll (t : Termination) (s : Scene) :
    (t.poll s).1.journal.errors = s.journal.errors := by
  unfold poll
  split
  · exact errors_start t s
  next v hv =>
    unfold keepVigil
    split
    · cases v.stage with
      | asked => exact errors_kill t _ s
      | killed => exact errors_giveUp t _ s
    · split
      · cases v.stage with
        | asked => exact errors_lookAtAsked t _ _ s
        | killed => exact errors_lookAtKilled t _ _ s
      · rfl

end Termination

end Tree

/-- One time that a call goes on: what the ending of the tree is at then, and the systems before and
after. -/
structure TreeTurn where
  tree : Termination
  before : System
  after : System

/-- A call that ends the tree of an entry: the times it has gone on so far, and what it is at. -/
structure TreeCall where
  entry : Tracked
  turns : List TreeTurn := []
  progress : Progress Termination Termination.Result

namespace TreeCall

def fresh (termLimit killLimit : Seconds) (entry : Tracked) : TreeCall :=
  { entry, progress := .pending { pid := entry.pid, termLimit, killLimit } }

def goOn (c : TreeCall) (w : System) : System × TreeCall :=
  match c.progress with
  | .pending tree =>
    let (after, progress) := tree.goOn w
    (after, { c with turns := c.turns ++ [⟨tree, w, after⟩], progress })
  | .done _ => (w, c)

def goOnAll : List TreeCall → System → System × List TreeCall
  | [], w => (w, [])
  | c :: calls, w =>
    let (w, c) := c.goOn w
    let (w, calls) := goOnAll calls w
    (w, c :: calls)

def callsIn (calls : List TreeCall) (turns : List (Session × Session)) : List TreeCall :=
  turns.foldl (fun calls turn => (goOnAll calls turn.1.system).2) calls

def Conducts : List TreeCall → List (Session × Session) → Prop
  | _, [] => True
  | calls, turn :: turns =>
    (goOnAll calls turn.1.system).1 = turn.2.system ∧ Conducts (goOnAll calls turn.1.system).2 turns

/-- A call has begun at a moment, with the ending of the tree of its entry, and has begun once. -/
structure Begun (termLimit killLimit : Seconds) (now : Instant) (c : TreeCall) : Prop where
  once : ∃ first rest, c.turns = first :: rest ∧ first.before.now = now ∧
    first.tree = { pid := c.entry.pid, termLimit, killLimit } ∧
    ∀ turn ∈ rest, turn.tree.vigil ≠ none
  going : ∀ tree, c.progress = .pending tree → tree.vigil ≠ none

def isGoing (c : TreeCall) : Bool :=
  match c.progress with
  | .pending _ => true
  | .done _ => false

def complaint? (c : TreeCall) : Option Note :=
  match c.progress with
  | .done (.error failure) =>
    let pid := c.entry.pid
    let command := quoted c.entry.command
    let reason := failure.message
    some
      { level := .error, origin := .registry
        text := s!"Failed to kill process pid={pid} command={command}: {reason}" }
  | _ => none

variable {c : TreeCall} {calls : List TreeCall} {w : System} {termLimit killLimit : Seconds}
  {now : Instant} {turns : List (Session × Session)} {turn : Session × Session}

theorem goOn_pending {tree : Termination} (h : c.progress = .pending tree) (w : System) :
    c.goOn w = ((tree.goOn w).1,
      { c with
        turns := c.turns ++ [⟨tree, w, (tree.goOn w).1⟩], progress := (tree.goOn w).2 }) := by
  unfold goOn
  rw [h]

theorem goOn_done {result : Termination.Result} (h : c.progress = .done result) (w : System) :
    c.goOn w = (w, c) := by
  unfold goOn
  rw [h]

theorem goOnAll_cons (c : TreeCall) (calls : List TreeCall) (w : System) :
    goOnAll (c :: calls) w = ((goOnAll calls (c.goOn w).1).1,
      (c.goOn w).2 :: (goOnAll calls (c.goOn w).1).2) := rfl

theorem goOnAll_append (xs ys : List TreeCall) (w : System) : goOnAll (xs ++ ys) w =
    ((goOnAll ys (goOnAll xs w).1).1, (goOnAll xs w).2 ++ (goOnAll ys (goOnAll xs w).1).2) := by
  induction xs generalizing w with
  | nil => rfl
  | cons c xs ih => rw [List.cons_append, goOnAll_cons, goOnAll_cons, ih, List.cons_append]

@[simp] theorem entry_goOn (c : TreeCall) (w : System) : (c.goOn w).2.entry = c.entry := by
  unfold goOn
  split <;> rfl

theorem entries_goOnAll (calls : List TreeCall) (w : System) :
    (goOnAll calls w).2.map (·.entry) = calls.map (·.entry) := by
  induction calls generalizing w with
  | nil => rfl
  | cons c calls ih => exact congrArg₂ List.cons (entry_goOn c w) (ih _)

theorem entries_callsIn (calls : List TreeCall) (turns : List (Session × Session)) :
    (callsIn calls turns).map (·.entry) = calls.map (·.entry) := by
  induction turns generalizing calls with
  | nil => rfl
  | cons turn turns ih => exact (ih _).trans (entries_goOnAll calls _)

theorem callsIn_append (calls : List TreeCall) (turns : List (Session × Session))
    (turn : Session × Session) :
    callsIn calls (turns ++ [turn]) = (goOnAll (callsIn calls turns) turn.1.system).2 := by
  simp [callsIn]

theorem Conducts.append (h : Conducts calls turns)
    (hturn : (goOnAll (callsIn calls turns) turn.1.system).1 = turn.2.system) :
    Conducts calls (turns ++ [turn]) := by
  induction turns generalizing calls with
  | nil => exact ⟨hturn, trivial⟩
  | cons first turns ih => exact ⟨h.1, ih h.2 hturn⟩

theorem now_goOn (c : TreeCall) (w : System) : (c.goOn w).1.now = w.now := by
  unfold goOn
  split
  next tree hp =>
    exact (Termination.calls_poll (k := False) (f := { scene := { system := w } }) (g := {})
      (s := { system := w }) .refl tree).carries.now
  · rfl

theorem vigil_goOn {tree next : Termination} (h : (tree.goOn w).2 = .pending next) :
    next.vigil ≠ none := by
  have hleaves : (tree.goOn w).2.Leaves (Termination.Quiet w.now) :=
    Termination.leaves_poll tree { system := w }
  rw [h] at hleaves
  cases hleaves with
  | pending hquiet =>
    obtain ⟨v, hv, -⟩ := hquiet
    simp [hv]

theorem Begun.goOn (h : c.Begun termLimit killLimit now) (w : System) :
    (c.goOn w).2.Begun termLimit killLimit now := by
  cases hp : c.progress with
  | done result =>
    rw [goOn_done hp]
    exact h
  | pending tree =>
    rw [goOn_pending hp]
    obtain ⟨first, rest, hturns, hnow, hfirst, hrest⟩ := h.once
    refine ⟨⟨first, rest ++ [⟨tree, w, (tree.goOn w).1⟩], ?_, hnow, hfirst, ?_⟩, fun next hn => ?_⟩
    · rw [hturns]
      rfl
    · intro turn hturn
      rcases List.mem_append.mp hturn with hturn | hturn
      · exact hrest turn hturn
      · exact List.mem_singleton.mp hturn ▸ h.going tree hp
    · dsimp only at hn
      exact vigil_goOn hn

theorem begun_fresh (termLimit killLimit : Seconds) (entry : Tracked) (w : System) :
    ((fresh termLimit killLimit entry).goOn w).2.Begun termLimit killLimit w.now := by
  have hbegins : ∀ c : TreeCall, c.entry = entry → c.turns = [] →
      c.progress = .pending { pid := entry.pid, termLimit, killLimit } →
      (c.goOn w).2.Begun termLimit killLimit w.now := by
    rintro c rfl hturns hp
    rw [goOn_pending hp, hturns]
    refine ⟨⟨_, [], rfl, rfl, rfl, ?_⟩, fun next hn => ?_⟩
    · intro turn hturn
      cases hturn
    · dsimp only at hn
      exact vigil_goOn hn
  exact hbegins _ rfl rfl rfl

theorem begun_goOnAll (h : ∀ c ∈ calls, c.Begun termLimit killLimit now) (w : System) :
    ∀ c ∈ (goOnAll calls w).2, c.Begun termLimit killLimit now := by
  induction calls generalizing w with
  | nil => simp [goOnAll]
  | cons c calls ih =>
    obtain ⟨hc, hcalls⟩ := List.forall_mem_cons.mp h
    rw [goOnAll_cons]
    intro x hx
    rcases List.mem_cons.mp hx with rfl | hx
    · exact hc.goOn w
    · exact ih hcalls _ x hx

theorem begun_goOnAll_fresh (termLimit killLimit : Seconds) (entries : List Tracked) (w : System) :
    ∀ c ∈ (goOnAll (entries.map (fresh termLimit killLimit)) w).2,
      c.Begun termLimit killLimit w.now := by
  induction entries generalizing w with
  | nil => simp [goOnAll]
  | cons entry entries ih =>
    have hnow := now_goOn (fresh termLimit killLimit entry) w
    rw [List.map_cons, goOnAll_cons]
    intro x hx
    rcases List.mem_cons.mp hx with rfl | hx
    · exact begun_fresh termLimit killLimit entry w
    · exact hnow ▸ ih _ x hx

theorem callsIn_cons (calls : List TreeCall) (turn : Session × Session)
    (turns : List (Session × Session)) :
    callsIn calls (turn :: turns) = callsIn (goOnAll calls turn.1.system).2 turns :=
  List.foldl_cons

theorem Conducts.last (h : Conducts calls (turns ++ [turn])) :
    (goOnAll (callsIn calls turns) turn.1.system).1 = turn.2.system := by
  induction turns generalizing calls with
  | nil => exact h.1
  | cons first turns ih =>
    rw [callsIn_cons]
    exact ih h.2

theorem begun_callsIn (h : ∀ c ∈ calls, c.Begun termLimit killLimit now)
    (turns : List (Session × Session)) :
    ∀ c ∈ callsIn calls turns, c.Begun termLimit killLimit now := by
  induction turns generalizing calls with
  | nil => exact h
  | cons turn turns ih =>
    rw [callsIn_cons]
    exact ih (begun_goOnAll h _)

theorem begun_callsIn_fresh (termLimit killLimit : Seconds) (entries : List Tracked)
    (turn : Session × Session) (turns : List (Session × Session)) :
    ∀ c ∈ callsIn (entries.map (fresh termLimit killLimit)) (turn :: turns),
      c.Begun termLimit killLimit turn.1.now := by
  rw [callsIn_cons]
  exact begun_callsIn (begun_goOnAll_fresh termLimit killLimit entries turn.1.system) turns

end TreeCall

namespace Fleet

/-- Nothing but the system is different, and what has been reported besides errors. -/
structure Aside (f g : Fleet) : Prop where
  processes : g.processes = f.processes
  registry : g.registry = f.registry
  errors : g.scene.journal.errors = f.scene.journal.errors

theorem Aside.refl (f : Fleet) : f.Aside f := ⟨rfl, rfl, rfl⟩

theorem Aside.trans {f g h : Fleet} (hfg : f.Aside g) (hgh : g.Aside h) : f.Aside h :=
  ⟨hgh.processes.trans hfg.processes, hgh.registry.trans hfg.registry,
    hgh.errors.trans hfg.errors⟩

theorem Aside.process? {f g : Fleet} (h : f.Aside g) (id : ProcessId) :
    g.process? id = f.process? id := by
  unfold Fleet.process?
  rw [h.processes]

theorem Aside.exitCode? {f g : Fleet} (h : f.Aside g) (id : ProcessId) :
    g.exitCode? id = f.exitCode? id := by
  unfold Fleet.exitCode?
  rw [h.process?]

end Fleet

namespace TreeCall

inductive Matches (f : Fleet) (c : TreeCall) : EntryEnd → Prop where
  | ending {tree} : c.progress = .pending tree → Matches f c (.ending tree)
  | waiting : c.progress = .done (.ok ()) → Matches f c .waiting
  | reported {code} : c.progress = .done (.ok ()) → f.exitCode? c.entry.process = some code →
      Matches f c (.ended none)
  | failed {failure} : c.progress = .done (.error failure) → Matches f c (.ended (some failure))

structure Serves (f : Fleet) (c : TreeCall) (entry : Tracked × EntryEnd) : Prop where
  own : c.entry = entry.1
  known : (f.process? c.entry.process).isSome = true
  stands : c.Matches f entry.2

/-- All is over with an entry: its call has failed, or it has succeeded and the end of the process
has been reported. -/
def Over (f : Fleet) (c : TreeCall) : Prop :=
  (c.progress = .done (.ok ()) ∧ ∃ code, f.exitCode? c.entry.process = some code) ∨
    ∃ failure, c.progress = .done (.error failure)

variable {f g : Fleet} {c : TreeCall} {calls : List TreeCall} {entry : Tracked × EntryEnd}
  {entries : List (Tracked × EntryEnd)}

theorem Serves.mono (h : c.Serves f entry)
    (hexists : (f.process? c.entry.process).isSome = true →
      (g.process? c.entry.process).isSome = true)
    (hexit : ∀ code, f.exitCode? c.entry.process = some code →
      g.exitCode? c.entry.process = some code) : c.Serves g entry := by
  obtain ⟨entry, sofar⟩ := entry
  obtain ⟨hentry, hknown, hstands⟩ := h
  refine ⟨hentry, hexists hknown, ?_⟩
  cases hstands with
  | ending hp => exact .ending hp
  | waiting hp => exact .waiting hp
  | reported hp hcode => exact .reported hp (hexit _ hcode)
  | failed hp => exact .failed hp

theorem Serves.aside (h : c.Serves f entry) (hg : f.Aside g) : c.Serves g entry :=
  h.mono (fun hp => (hg.process? _).symm ▸ hp) fun _ hcode => (hg.exitCode? _).trans hcode

/-- When a tree has been ended, the report of the end of the process is waited for. -/
theorem matches_awaitEnd (hp : c.progress = .done (.ok ()))
    (hknown : (f.process? c.entry.process).isSome = true) :
    c.Matches f (Teardown.awaitEnd c.entry f) := by
  unfold Teardown.awaitEnd
  cases hrunning : f.isRunning c.entry.process with
  | true => exact .waiting hp
  | false =>
    obtain ⟨code, hcode⟩ := Session.exitCode?_of_not_running hknown hrunning
    exact .reported hp hcode

theorem serves_pollEntry (h : c.Serves f entry) :
    let next := Teardown.pollEntry f entry.1 entry.2
    let went := c.goOn f.scene.system
    next.1.scene.system = went.1 ∧ f.Aside next.1 ∧ went.2.Serves next.1 (entry.1, next.2) := by
  obtain ⟨entry, sofar⟩ := entry
  obtain ⟨rfl, hknown, hstands⟩ := h
  cases hstands with
  | @ending tree hp =>
    obtain ⟨hsystem, hprogress⟩ :=
      Termination.poll_congr (u := { system := f.scene.system }) (s := f.scene) rfl tree
    have herrors := Termination.errors_poll tree f.scene
    dsimp only
    rw [goOn_pending hp, Teardown.pollEntry]
    unfold Termination.goOn
    dsimp only
    rw [← hprogress, ← hsystem]
    generalize tree.poll f.scene = polled at herrors
    rcases polled with ⟨scene, rest | ⟨failure | ⟨⟩⟩⟩
    · exact ⟨rfl, ⟨rfl, rfl, herrors⟩, rfl, hknown, .ending rfl⟩
    · exact ⟨rfl, ⟨rfl, rfl, herrors⟩, rfl, hknown, .failed rfl⟩
    · exact ⟨rfl, ⟨rfl, rfl, herrors⟩, rfl, hknown, matches_awaitEnd rfl hknown⟩
  | waiting hp =>
    dsimp only
    rw [goOn_done hp, Teardown.pollEntry]
    exact ⟨rfl, .refl f, rfl, hknown, matches_awaitEnd hp hknown⟩
  | reported hp hcode =>
    dsimp only
    rw [goOn_done hp, Teardown.pollEntry]
    exact ⟨rfl, .refl f, rfl, hknown, .reported hp hcode⟩
  | failed hp =>
    dsimp only
    rw [goOn_done hp, Teardown.pollEntry]
    exact ⟨rfl, .refl f, rfl, hknown, .failed hp⟩

theorem serve_pollEntries (h : List.Forall₂ (Serves f) calls entries) :
    let next := Teardown.pollEntries f entries
    let went := goOnAll calls f.scene.system
    next.1.scene.system = went.1 ∧ f.Aside next.1 ∧
      List.Forall₂ (Serves next.1) went.2 next.2 := by
  induction calls generalizing f entries with
  | nil =>
    cases h
    exact ⟨rfl, .refl f, .nil⟩
  | cons c calls ih =>
    cases h with
    | @cons _ entry _ entries hc hcalls =>
      obtain ⟨hsystem, haside, hserves⟩ := serves_pollEntry hc
      obtain ⟨hlast, hfrom, hall⟩ := ih (hcalls.imp fun _ _ hx => hx.aside haside)
      rw [goOnAll_cons, Teardown.pollEntries]
      rw [hsystem] at hlast hall
      exact ⟨hlast, haside.trans hfrom, .cons (hserves.aside hfrom) hall⟩

theorem exists_served (h : List.Forall₂ (Serves f) calls entries) (hc : c ∈ calls) :
    ∃ entry ∈ entries, c.Serves f entry := by
  induction h with
  | nil => cases hc
  | @cons _ entry _ _ hfirst _ ih =>
    rcases List.mem_cons.mp hc with rfl | hc
    · exact ⟨entry, List.mem_cons_self, hfirst⟩
    · obtain ⟨other, ho, hserves⟩ := ih hc
      exact ⟨other, List.mem_cons_of_mem _ ho, hserves⟩

theorem Serves.over (h : c.Serves f entry) (hover : Teardown.isOver entry.2 = true) : c.Over f := by
  obtain ⟨entry, sofar⟩ := entry
  obtain ⟨-, -, hstands⟩ := h
  revert hover
  cases hstands with
  | ending hp => exact nofun
  | waiting hp => exact nofun
  | reported hp hcode => exact fun _ => .inl ⟨hp, _, hcode⟩
  | failed hp => exact fun _ => .inr ⟨_, hp⟩

theorem over_of_all (h : List.Forall₂ (Serves f) calls entries)
    (hall : entries.all (Teardown.isOver ·.2) = true) : ∀ c ∈ calls, c.Over f := by
  induction h with
  | nil => exact List.forall_mem_nil _
  | cons hc _ ih =>
    obtain ⟨hover, hrest⟩ := Bool.and_eq_true_iff.mp hall
    intro x hx
    rcases List.mem_cons.mp hx with rfl | hx
    · exact hc.over hover
    · exact ih hrest x hx

/-- All is over with an entry when its call is and, where it has succeeded, the process has been
reported as exited. -/
theorem over_iff (hknown : (f.process? c.entry.process).isSome = true) : c.Over f ↔
    ∃ result, c.progress = .done result ∧
      (result = .ok () → f.isRunning c.entry.process = false) := by
  constructor
  · rintro (⟨hp, code, hcode⟩ | ⟨failure, hp⟩)
    · exact ⟨.ok (), hp, fun _ => Session.not_running_of_exitCode? hcode⟩
    · exact ⟨.error failure, hp, nofun⟩
  · rintro ⟨failure | ⟨⟩, hp, hstopped⟩
    · exact .inr ⟨failure, hp⟩
    · exact .inl ⟨hp, Session.exitCode?_of_not_running hknown (hstopped rfl)⟩

/-- When all is over with an entry, it is over when the entry goes on. -/
theorem pollEntry_of_over (h : c.Serves f entry) (hover : c.Over f) :
    ∃ failure, Teardown.pollEntry f entry.1 entry.2 = (f, .ended failure) := by
  obtain ⟨entry, sofar⟩ := entry
  obtain ⟨rfl, -, hmatches⟩ := h
  cases hmatches with
  | ending hp =>
    rcases hover with ⟨hdone, -⟩ | ⟨failure, hdone⟩
    · cases hp.symm.trans hdone
    · cases hp.symm.trans hdone
  | waiting hp =>
    rcases hover with ⟨-, code, hcode⟩ | ⟨failure, hdone⟩
    · refine ⟨none, ?_⟩
      dsimp only
      rw [Teardown.pollEntry, Teardown.awaitEnd, Session.not_running_of_exitCode? hcode]
      rfl
    · cases hp.symm.trans hdone
  | reported => exact ⟨none, rfl⟩
  | failed => exact ⟨some _, rfl⟩

/-- When all is over with all entries, the teardown is over when it goes on. -/
theorem poll_of_over (h : List.Forall₂ (Serves f) calls entries)
    (hover : ∀ c ∈ calls, c.Over f) : (Teardown.poll ⟨entries⟩ f).2 = .done () := by
  have hall : ∃ after, Teardown.pollEntries f entries = (f, after) ∧
      after.all (Teardown.isOver ·.2) = true := by
    induction h with
    | nil => exact ⟨[], rfl, rfl⟩
    | @cons c entry calls entries hserves _ ih =>
      obtain ⟨hc, hrest⟩ := List.forall_mem_cons.mp hover
      obtain ⟨failure, hone⟩ := pollEntry_of_over hserves hc
      obtain ⟨after, hpolled, hends⟩ := ih hrest
      refine ⟨(entry.1, .ended failure) :: after, ?_, hends⟩
      rw [Teardown.pollEntries, hone]
      dsimp only
      rw [hpolled]
  obtain ⟨after, hpolled, hends⟩ := hall
  rw [Teardown.poll, hpolled]
  dsimp only
  rw [if_pos hends]

theorem Serves.complaint? (h : c.Serves f entry) : c.complaint? = Teardown.failureNote? entry := by
  obtain ⟨entry, sofar⟩ := entry
  obtain ⟨rfl, -, hstands⟩ := h
  unfold TreeCall.complaint?
  cases hstands with
  | ending hp => rw [hp]; rfl
  | waiting hp => rw [hp]; rfl
  | reported hp hcode => rw [hp]; rfl
  | failed hp => rw [hp]; rfl

theorem complaints_eq (h : List.Forall₂ (Serves f) calls entries) :
    calls.filterMap TreeCall.complaint? = entries.filterMap Teardown.failureNote? := by
  induction h with
  | nil => rfl
  | cons hc _ ih => rw [List.filterMap_cons, List.filterMap_cons, hc.complaint?, ih]

theorem level_complaint {note : Note} (h : c.complaint? = some note) : note.level = .error := by
  unfold TreeCall.complaint? at h
  split at h
  · obtain rfl := Option.some.inj h
    rfl
  · cases h

end TreeCall

end Overseer
