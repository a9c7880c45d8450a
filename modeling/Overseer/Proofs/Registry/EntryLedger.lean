import Overseer.Proofs.Registry.Registration
import Overseer.Proofs.Session.SettledSessions
import Overseer.Proofs.Timeline.Recorders
import Overseer.Proofs.Tree.Leftovers

/-!
# What becomes of entries of the registry

A ledger keeps account of every entry of the registry that is ever made: it is still there, or it
has been taken off, or another process has taken its place, or it has been handed to a teardown. The
accounts of a session are kept beside it (`Session.accountant`), and they are balanced at every time
(`Session.balanced_later`): no entry is lost, and none is counted twice. -/

namespace Overseer

open Overseer.Tree World

structure Ledger where
  made : List Tracked := []
  removed : List Tracked := []
  /-- The entries whose place another one has taken, each with that other one. -/
  replaced : List (Tracked × Tracked) := []
  handed : List (List Tracked) := []
  deriving DecidableEq, Repr

namespace Ledger

def register (l : Ledger) (r : Registry) (entry : Tracked) : Ledger :=
  match r.find? entry.pid with
  | none => { l with made := l.made ++ [entry] }
  | some current =>
    if current.process = entry.process then l
    else { l with made := l.made ++ [entry], replaced := l.replaced ++ [(current, entry)] }

def unregister (l : Ledger) (r : Registry) (pid : Int) (process : ProcessId) : Ledger :=
  match r.find? pid with
  | none => l
  | some current =>
    if current.process = process then { l with removed := l.removed ++ [current] } else l

def handOver (l : Ledger) (r : Registry) : Ledger := { l with handed := l.handed ++ [r.entries] }

def departed (l : Ledger) : List Tracked :=
  l.removed ++ l.replaced.map (·.1) ++ l.handed.flatten

structure Extends (a b : Ledger) : Prop where
  made : a.made <+: b.made
  removed : a.removed <+: b.removed
  replaced : a.replaced <+: b.replaced
  handed : a.handed <+: b.handed

/-- Every entry that has been made is in the registry or has departed, once. Only another process
under the same pid takes the place of an entry. -/
structure Balanced (l : Ledger) (r : Registry) : Prop where
  all : l.made.Perm (r.entries ++ l.departed)
  replaced : ∀ x ∈ l.replaced, x.2.pid = x.1.pid ∧ x.2.process ≠ x.1.process

variable {l : Ledger} {r : Registry} {entry : Tracked} {standing : ProcessId → Standing}

theorem place_of_none {entries : List Tracked} (h : entries.find? (·.pid == entry.pid) = none) :
    Registry.place entry entries = entries ++ [entry] := by
  induction entries with
  | nil => rfl
  | cons t rest ih =>
    rw [List.find?_eq_none] at h
    have ht : ¬ t.pid = entry.pid := by simpa using h t List.mem_cons_self
    rw [Registry.place, if_neg ht, ih (List.find?_eq_none.mpr fun x hx => h x (.tail t hx))]
    rfl

/-- To put an entry in the place of another one is to change the one for the other. -/
theorem perm_place_of_some {entries : List Tracked} {current : Tracked}
    (h : entries.find? (·.pid == entry.pid) = some current) :
    (Registry.place entry entries ++ [current]).Perm (entries ++ [entry]) := by
  induction entries with
  | nil => cases h
  | cons t rest ih =>
    rw [Registry.place]
    by_cases ht : t.pid = entry.pid
    · rw [List.find?_cons_of_pos (by simpa using ht)] at h
      obtain rfl := Option.some.inj h
      rw [if_pos ht]
      have hswap : (entry :: (rest ++ [t])).Perm (entry :: t :: rest) :=
        (List.perm_append_singleton t rest).cons entry
      exact hswap.trans ((List.perm_append_singleton entry (t :: rest)).symm)
    · rw [List.find?_cons_of_neg (by simpa using ht)] at h
      rw [if_neg ht]
      exact (ih h).cons t

theorem filter_perm_of_find? {current : Tracked} {pid : Int} {entries : List Tracked}
    (hn : (entries.map (·.pid)).Nodup) (h : entries.find? (·.pid == pid) = some current) :
    (entries.filter (·.pid != pid) ++ [current]).Perm entries := by
  induction entries with
  | nil => cases h
  | cons t rest ih =>
    obtain ⟨hnot, hrest⟩ := List.nodup_cons.mp hn
    by_cases ht : t.pid = pid
    · rw [List.find?_cons_of_pos (by simpa using ht)] at h
      obtain rfl := Option.some.inj h
      have hall : rest.filter (·.pid != pid) = rest := by
        refine List.filter_eq_self.mpr fun x hx => ?_
        have hne : x.pid ≠ t.pid := fun he => hnot (List.mem_map.mpr ⟨x, hx, he⟩)
        simpa [ht] using hne
      rw [List.filter_cons_of_neg (by simpa using ht), hall]
      exact List.perm_append_singleton t rest
    · rw [List.find?_cons_of_neg (by simpa using ht)] at h
      rw [List.filter_cons_of_pos (by simpa using ht)]
      exact (ih hrest h).cons t

theorem perm_snoc {made entries departed : List Tracked} (entry : Tracked)
    (h : made.Perm (entries ++ departed)) :
    (made ++ [entry]).Perm ((entries ++ [entry]) ++ departed) := by
  rw [List.append_assoc]
  refine (List.perm_append_singleton entry made).trans ((h.cons entry).trans ?_)
  have hmiddle : (entries ++ entry :: departed).Perm (entry :: (entries ++ departed)) :=
    List.perm_middle
  exact hmiddle.symm

theorem perm_one_last (current : Tracked) (entries : List Tracked) :
    ([current] ++ entries).Perm (entries ++ [current]) := List.perm_append_comm

/-- The accounts when an entry leaves the registry for one of the places of those that have
departed. -/
theorem perm_leave {before after old new : List Tracked} {current : Tracked}
    (hentries : (after ++ [current]).Perm before) (hdeparted : new.Perm (old ++ [current])) :
    (before ++ old).Perm (after ++ new) := by
  refine (hentries.symm.append_right old).trans ?_
  rw [List.append_assoc]
  exact ((perm_one_last current old).trans hdeparted.symm).append_left after

theorem Balanced.register (h : l.Balanced r) :
    (l.register r entry).Balanced (r.register standing entry).1 := by
  unfold Ledger.register Registry.register
  cases hf : r.find? entry.pid with
  | none =>
    refine ⟨?_, h.replaced⟩
    have hplace : Registry.place entry r.entries = r.entries ++ [entry] := place_of_none hf
    dsimp only
    rw [hplace]
    exact perm_snoc entry h.all
  | some current =>
    dsimp only
    by_cases hp : current.process = entry.process
    · rw [if_pos hp, if_pos hp]
      exact h
    · have hpid : current.pid = entry.pid := by simpa using List.find?_some hf
      rw [if_neg hp, if_neg hp]
      refine ⟨?_, fun x hx => ?_⟩
      · refine (perm_snoc entry h.all).trans (perm_leave (perm_place_of_some hf) ?_)
        simp only [departed, List.map_append, List.append_assoc]
        exact ((perm_one_last current l.handed.flatten).append_left _).append_left _
      · rcases List.mem_append.mp hx with hx | hx
        · exact h.replaced x hx
        · obtain rfl := List.mem_singleton.mp hx
          exact ⟨hpid.symm, Ne.symm hp⟩

theorem Balanced.unregister (h : l.Balanced r) (hn : r.pids.Nodup) (pid : Int)
    (process : ProcessId) :
    (l.unregister r pid process).Balanced (r.unregister standing pid process).1 := by
  unfold Ledger.unregister Registry.unregister
  cases hf : r.find? pid with
  | none => exact h
  | some current =>
    dsimp only
    by_cases hp : current.process = process
    · rw [if_pos hp, if_pos hp]
      refine ⟨h.all.trans (perm_leave (filter_perm_of_find? hn hf) ?_), h.replaced⟩
      simp only [departed, List.append_assoc]
      rw [← List.append_assoc (l.replaced.map _)]
      exact (perm_one_last current _).append_left _
    · rw [if_neg hp, if_neg hp]
      exact h

theorem Balanced.handOver (h : l.Balanced r) : (l.handOver r).Balanced {} := by
  refine ⟨h.all.trans ?_, h.replaced⟩
  have hflat : (l.handOver r).departed = l.departed ++ r.entries := by
    simp [departed, Ledger.handOver]
  rw [hflat]
  exact List.perm_append_comm

theorem Extends.refl (l : Ledger) : l.Extends l :=
  ⟨List.prefix_rfl, List.prefix_rfl, List.prefix_rfl, List.prefix_rfl⟩

theorem Extends.trans {a b c : Ledger} (h : a.Extends b) (k : b.Extends c) : a.Extends c :=
  ⟨h.made.trans k.made, h.removed.trans k.removed, h.replaced.trans k.replaced,
    h.handed.trans k.handed⟩

theorem extends_register (l : Ledger) (r : Registry) (entry : Tracked) :
    l.Extends (l.register r entry) := by
  unfold Ledger.register
  split
  · exact ⟨List.prefix_append _ _, List.prefix_rfl, List.prefix_rfl, List.prefix_rfl⟩
  · split
    · exact .refl l
    · exact ⟨List.prefix_append _ _, List.prefix_rfl, List.prefix_append _ _, List.prefix_rfl⟩

theorem extends_unregister (l : Ledger) (r : Registry) (pid : Int) (process : ProcessId) :
    l.Extends (l.unregister r pid process) := by
  unfold Ledger.unregister
  split
  · exact .refl l
  · split
    · exact ⟨List.prefix_rfl, List.prefix_append _ _, List.prefix_rfl, List.prefix_rfl⟩
    · exact .refl l

theorem extends_handOver (l : Ledger) (r : Registry) : l.Extends (l.handOver r) :=
  ⟨List.prefix_rfl, List.prefix_rfl, List.prefix_rfl, List.prefix_append _ _⟩

end Ledger

theorem Stopping.registry_poll (x : Stopping) (f : Fleet) : (x.poll f).1.registry = f.registry := by
  have hawait : ∀ g : Fleet, (x.awaitEnd g).1.registry = g.registry := by
    intro g
    unfold awaitEnd
    split <;> rfl
  unfold poll
  split
  · exact hawait f
  · split
    · rfl
    · rfl
    · exact hawait _

theorem Stopping.registry_start (process : ProcessId) (f : Fleet) :
    (Stopping.start process f).1.registry = f.registry := by
  unfold Stopping.start
  split
  · rfl
  · split
    · exact registry_poll _ f
    · rfl

namespace Teardown

theorem registry_pollEntry (f : Fleet) (entry : Tracked) (sofar : EntryEnd) :
    (pollEntry f entry sofar).1.registry = f.registry := by
  cases sofar with
  | ending tree =>
    rw [pollEntry]
    split <;> rfl
  | waiting => rfl
  | ended failure => rfl

theorem registry_pollEntries (entries : List (Tracked × EntryEnd)) (f : Fleet) :
    (pollEntries f entries).1.registry = f.registry := by
  induction entries generalizing f with
  | nil => rfl
  | cons first entries ih => exact (ih _).trans (registry_pollEntry f first.1 first.2)

theorem registry_poll (t : Teardown) (f : Fleet) : (t.poll f).1.registry = f.registry := by
  unfold poll
  dsimp only
  split
  · exact registry_pollEntries t.entries f
  · exact registry_pollEntries t.entries f

theorem registry_start (termLimit killLimit : Number.Seconds) (f : Fleet) :
    (Teardown.start termLimit killLimit f).1.registry = {} := by
  unfold Teardown.start
  split
  next hnone => exact congrArg Registry.mk hnone
  · exact registry_poll _ _

end Teardown

theorem registry_requireSuccess (command : String) (code : Int) (output : String) (f : Fleet) :
    (requireSuccess command code output f).1.registry = f.registry := by
  unfold requireSuccess
  split <;> rfl

namespace BoundedRun

def isOverdue : Progress BoundedRun Result → Bool
  | .done (.error (.timeout _ _ _ _)) => true
  | _ => false

end BoundedRun

namespace Ledger

def track (l : Ledger) (f : Fleet) (id : ProcessId) : Ledger :=
  match f.process? id with
  | none => l
  | some p => l.register f.registry (Fleet.entryOf p id)

def untrack (l : Ledger) (f : Fleet) (id : ProcessId) : Ledger :=
  match f.process? id with
  | none => l
  | some p => l.unregister f.registry p.pid id

def start (l : Ledger) (f : Fleet) (settings : Settings) (request : Request) (track : Bool) :
    Ledger :=
  match f.start settings request with
  | (_, .error _) => l
  | (g, .ok id) => if track then l.track g id else l

/-- A bounded run goes on. One that has taken too long has its process taken off. -/
def pollRun (l : Ledger) (f : Fleet) (r : BoundedRun) : Ledger :=
  if r.tracked ∧ BoundedRun.isOverdue (r.poll f).2 = true then l.untrack f r.process else l

theorem extends_track (l : Ledger) (f : Fleet) (id : ProcessId) : l.Extends (l.track f id) := by
  unfold Ledger.track
  split
  · exact .refl l
  · exact extends_register l _ _

theorem extends_untrack (l : Ledger) (f : Fleet) (id : ProcessId) : l.Extends (l.untrack f id) := by
  unfold Ledger.untrack
  split
  · exact .refl l
  · exact extends_unregister l _ _ id

theorem extends_start (l : Ledger) (f : Fleet) (settings : Settings) (request : Request)
    (track : Bool) : l.Extends (l.start f settings request track) := by
  unfold Ledger.start
  split
  · exact .refl l
  · split
    · exact extends_track l _ _
    · exact .refl l

theorem extends_pollRun (l : Ledger) (f : Fleet) (r : BoundedRun) : l.Extends (l.pollRun f r) := by
  unfold Ledger.pollRun
  split
  · exact extends_untrack l f _
  · exact .refl l

end Ledger

namespace Session

open Timeline

def accountBegun (peers : List Activity) (command : Command) (s : Session) (l : Ledger) : Ledger :=
  match command with
  | .start _ request track =>
    l.start s.fleet s.settings (s.placed request) (track || s.home.isSome)
  | .run request limit check track =>
    match s.fleet.startTracked s.settings (s.holds peers) request track with
    | (_, .error _) => l
    | (f, .ok process) =>
      let limit := limit.getD s.settings.runTimeout
      (l.start s.fleet s.settings request track).pollRun f
        { process, command := request.command, limit, deadline := limit.deadline f.now, check
          tracked := track }
  | .register name => ((s.handle? name).map fun h => l.track s.fleet h.process).getD l
  | .unregister name => ((s.handle? name).map fun h => l.untrack s.fleet h.process).getD l
  | .teardown => l.handOver s.fleet.registry
  | .leave => l.handOver s.fleet.registry
  | _ => l

def accountPolled (activity : Activity) (s : Session) (l : Ledger) : Ledger :=
  match activity with
  | .run r => l.pollRun s.fleet r
  | _ => l

def accountant : Recorder Session Command Activity Ledger where
  begun := accountBegun
  polled := accountPolled

def ledgered : Machinery (Session × Ledger) Command Activity Result := machinery.recorded accountant

theorem extends_accountBegun (peers : List Activity) (command : Command) (s : Session)
    (l : Ledger) :
    l.Extends (accountBegun peers command s l) := by
  have hhandle : ∀ (handle : Option Handle) (account : Handle → Ledger),
      (∀ h, l.Extends (account h)) → l.Extends ((handle.map account).getD l) := by
    intro handle account h
    cases handle with
    | none => exact .refl l
    | some x => exact h x
  unfold accountBegun
  split
  · exact l.extends_start _ _ _ _
  · split
    · exact .refl l
    · exact (l.extends_start _ _ _ _).trans (Ledger.extends_pollRun _ _ _)
  · exact hhandle _ _ fun h => l.extends_track _ _
  · exact hhandle _ _ fun h => l.extends_untrack _ _
  · exact l.extends_handOver _
  · exact l.extends_handOver _
  · exact .refl l

theorem extends_accountPolled (activity : Activity) (s : Session) (l : Ledger) :
    l.Extends (accountPolled activity s l) := by
  unfold accountPolled
  split
  · exact l.extends_pollRun _ _
  · exact .refl l

theorem extends_later {t u : Timeline (Session × Ledger) Activity Result}
    (h : Later ledgered t u) : t.state.2.Extends u.state.2 := by
  refine Later.induction (m := ledgered) (P := fun u => t.state.2.Extends u.state.2)
    ?_ ?_ ?_ ?_ ?_ (.refl _) h
  · intro u step hu
    refine launch_induction (m := ledgered) (P := fun v => t.state.2.Extends v.state.2)
      (fun v task _ hv => hv) (fun v names hv => hv) ?_ ?_ hu step
    · intro v id hv
      rcases cancelTask_state (m := ledgered) v id with ⟨a, -, hs⟩ | hs <;> rw [hs] <;> exact hv
    · exact fun v command hv => hv.trans (extends_accountBegun _ command _ _)
  · exact fun u moment hu => hu
  · exact fun u hu => hu
  · exact fun u hu => hu
  · intro u id hu
    obtain ⟨a, -, hp⟩ | ⟨-, hs, -⟩ := pollTask_cases (m := ledgered) u id
    · rw [hp]
      exact hu.trans (extends_accountPolled a _ _)
    · rw [hs]
      exact hu

end Session

def Failure.isOfTree : Failure → Bool
  | .cleanup _ _ => true
  | .notPermitted => true
  | .accessDenied _ => true
  | _ => false

namespace Tree

variable {failure : Failure} {s : Scene}

theorem isOfTree_survivors {w : System} {ps : List ProcessRef}
    (h : survivors w ps = .error failure) : failure.isOfTree = true := by
  obtain ⟨p, -, hp⟩ := survivors_error h
  rw [isAlive_error hp]
  rfl

theorem isOfTree_members {w : System} {pid : Int} (h : (members w pid).1 = .error failure) :
    failure.isOfTree = true := by
  rcases members_error h with rfl | ⟨p, rfl⟩ <;> rfl

namespace Termination

theorem isOfTree_lookAtKilled (t : Termination) (alive : List ProcessRef)
    (deadline : Option Instant)
    (h : (t.lookAtKilled alive deadline s).2 = .done (.error failure)) :
    failure.isOfTree = true := by
  unfold lookAtKilled at h
  split at h
  next other hs =>
    cases h
    exact isOfTree_survivors hs
  · cases h
  · split at h
    · cases h
      rfl
    · cases h

theorem isOfTree_kill (t : Termination) (alive : List ProcessRef)
    (h : (t.kill alive s).2 = .done (.error failure)) : failure.isOfTree = true :=
  isOfTree_lookAtKilled t alive _ h

theorem isOfTree_lookAtAsked (t : Termination) (alive : List ProcessRef)
    (deadline : Option Instant)
    (h : (t.lookAtAsked alive deadline s).2 = .done (.error failure)) :
    failure.isOfTree = true := by
  unfold lookAtAsked at h
  split at h
  next other hs =>
    cases h
    exact isOfTree_survivors hs
  · cases h
  · split at h
    · exact isOfTree_kill t _ h
    · cases h

theorem isOfTree_poll (t : Termination) (s : Scene) (h : (t.poll s).2 = .done (.error failure)) :
    failure.isOfTree = true := by
  unfold poll at h
  split at h
  · unfold start at h
    rcases hm : members s.system t.pid with ⟨found, notes⟩
    rw [hm] at h
    dsimp only at h
    split at h
    · cases h
      exact isOfTree_members (congrArg Prod.fst hm)
    · cases h
    · exact isOfTree_lookAtAsked t _ _ h
  next v hv =>
    unfold keepVigil at h
    split at h
    · cases hstage : v.stage with
      | asked =>
        rw [hstage] at h
        exact isOfTree_kill t _ h
      | killed =>
        rw [hstage] at h
        cases h
        rfl
    · split at h
      · cases hstage : v.stage with
        | asked =>
          rw [hstage] at h
          exact isOfTree_lookAtAsked t _ _ h
        | killed =>
          rw [hstage] at h
          exact isOfTree_lookAtKilled t _ _ h
      · cases h

end Termination

end Tree

namespace Stopping

variable {failure : Failure} {f : Fleet} {s rest : Stopping} {process : ProcessId}

theorem awaitEnd_ne_error (x : Stopping) (f : Fleet) :
    (x.awaitEnd f).2 ≠ .done (.error failure) := by
  unfold awaitEnd
  split <;> nofun

theorem isOfTree_poll (x : Stopping) (f : Fleet) (h : (x.poll f).2 = .done (.error failure)) :
    failure.isOfTree = true := by
  unfold poll at h
  split at h
  · exact absurd h (awaitEnd_ne_error x f)
  next tree ht =>
    split at h
    · cases h
    next scene other hp =>
      cases h
      exact Termination.isOfTree_poll tree f.scene (congrArg Prod.snd hp)
    · exact absurd h (awaitEnd_ne_error x _)

theorem isOfTree_start (process : ProcessId) (f : Fleet)
    (h : (Stopping.start process f).2 = .done (.error failure)) : failure.isOfTree = true := by
  unfold Stopping.start at h
  split at h
  · cases h
  · split at h
    · exact isOfTree_poll _ f h
    · cases h

theorem processes_start (process : ProcessId) (f : Fleet) :
    (Stopping.start process f).1.processes = f.processes := by
  unfold Stopping.start
  split
  · rfl
  · split
    · exact Session.processes_pollStopping _ f
    · rfl

/-- A process whose stopping has succeeded has been reported as exited. -/
theorem ended_poll (hp : (f.process? s.process).isSome = true) (h : (s.poll f).2 = .done (.ok ())) :
    ∃ code, (s.poll f).1.exitCode? s.process = some code := by
  have hawait : ∀ x : Fleet, x.processes = f.processes → (s.awaitEnd x).2 = .done (.ok ()) →
      ∃ code, (s.awaitEnd x).1.exitCode? s.process = some code := by
    intro x hx h
    unfold awaitEnd at h ⊢
    split at h
    · cases h
    next hr =>
      rw [if_neg hr]
      refine Option.ne_none_iff_exists'.mp (Session.exitCode?_ne_none ?_ (by simpa using hr))
      rwa [Fleet.process?, hx]
  unfold poll at h ⊢
  split at h
  · exact hawait f rfl h
  next tree _ =>
    split at h
    · cases h
    · cases h
    next scene ht => exact hawait { f with scene } rfl h

theorem ended_start (hp : (f.process? process).isSome = true)
    (h : (start process f).2 = .done (.ok ())) :
    ∃ code, (start process f).1.exitCode? process = some code := by
  obtain ⟨p, hp⟩ := Option.isSome_iff_exists.mp hp
  unfold start at h ⊢
  rw [hp] at h ⊢
  dsimp only at h ⊢
  split at h
  next hr =>
    rw [if_pos hr]
    exact ended_poll (s := ⟨process, some (terminationOf p)⟩) (by simp [hp]) h
  next hr =>
    rw [if_neg hr]
    refine Option.ne_none_iff_exists'.mp (Session.exitCode?_ne_none (by simp [hp]) ?_)
    rw [Fleet.isRunning, hp]
    simpa using hr

theorem process_of_poll (h : (s.poll f).2 = .pending rest) : rest.process = s.process := by
  have hawait : ∀ x : Fleet, (s.awaitEnd x).2 = .pending rest → rest.process = s.process := by
    intro x h
    unfold awaitEnd at h
    split at h
    · obtain rfl := Progress.pending.inj h
      rfl
    · cases h
  unfold poll at h
  split at h
  · exact hawait f h
  · split at h
    · obtain rfl := Progress.pending.inj h
      rfl
    · cases h
    · exact hawait _ h

theorem process_of_start (h : (start process f).2 = .pending rest) : rest.process = process := by
  unfold start at h
  split at h
  · cases h
  · split at h
    · exact process_of_poll h
    · cases h

end Stopping

namespace BoundedRun

variable {f : Fleet}

theorem registry_unregister_congr {g : Fleet} (hr : g.registry = f.registry)
    (hp : g.processes = f.processes) (standing : ProcessId → Standing) (id : ProcessId) :
    (g.unregister standing id).1.registry = (f.unregister standing id).1.registry := by
  unfold Fleet.unregister Fleet.process?
  rw [hp]
  split
  · exact hr
  · dsimp only
    rw [hr]
    rfl

theorem isOverdue_of_isOfTree {failure : Failure} (h : failure.isOfTree = true) :
    isOverdue (.done (.error failure)) = false := by
  cases failure with
  | timeout => cases h
  | _ => rfl

theorem registry_afterStopping (r : BoundedRun) {x : Fleet × Progress Stopping Stopping.Result}
    (hr : x.1.registry = f.registry) (hp : x.1.processes = f.processes)
    (hfails : ∀ failure, x.2 = .done (.error failure) → failure.isOfTree = true) :
    ¬ (r.tracked = true ∧ isOverdue (r.afterStopping x).2 = true) ∧
        (r.afterStopping x).1.registry = f.registry ∨
      (r.tracked = true ∧ isOverdue (r.afterStopping x).2 = true) ∧ ∃ standing,
        (r.afterStopping x).1.registry = (f.unregister standing r.process).1.registry := by
  obtain ⟨g, stopping | ⟨failure | ⟨⟩⟩⟩ := x
  · exact .inl ⟨fun hover => (Bool.false_ne_true hover.2).elim, hr⟩
  · have hno := isOverdue_of_isOfTree (hfails failure rfl)
    exact .inl ⟨fun hover => Bool.false_ne_true (hno.symm.trans hover.2), hr⟩
  · simp only [afterStopping, giveUp]
    cases htracked : r.tracked with
    | false => exact .inl ⟨fun hover => (Bool.false_ne_true hover.1).elim, hr⟩
    | true => exact .inr ⟨⟨rfl, rfl⟩, _, registry_unregister_congr hr hp _ r.process⟩

theorem isOverdue_finish (r : BoundedRun) (code : Int) (f : Fleet) :
    isOverdue (.done (r.finish code f).2) = false := by
  unfold finish
  split
  · unfold requireSuccess
    split <;> rfl
  · rfl

theorem registry_finish (r : BoundedRun) (code : Int) (f : Fleet) :
    (r.finish code f).1.registry = f.registry := by
  unfold finish
  split
  · exact registry_requireSuccess _ _ _ f
  · rfl

/-- A run leaves the registry alone, but for one case: it fails because it has taken too long, and
takes its process off. -/
theorem registry_poll (r : BoundedRun) (f : Fleet) :
    ¬ (r.tracked = true ∧ isOverdue (r.poll f).2 = true) ∧ (r.poll f).1.registry = f.registry ∨
      (r.tracked = true ∧ isOverdue (r.poll f).2 = true) ∧ ∃ standing,
        (r.poll f).1.registry = (f.unregister standing r.process).1.registry := by
  unfold poll
  cases hs : r.stopping with
  | some stopping =>
    exact registry_afterStopping r (Stopping.registry_poll stopping f)
      (Session.processes_pollStopping stopping f) fun _ => Stopping.isOfTree_poll stopping f
  | none =>
    cases f.exitCode? r.process with
    | some code =>
      have hno := isOverdue_finish r code f
      exact .inl ⟨fun hover =>
        Bool.false_ne_true (hno.symm.trans hover.2), registry_finish r code f⟩
    | none =>
      dsimp only
      by_cases hr : Instant.reached f.now r.deadline = true
      · rw [if_pos hr]
        exact registry_afterStopping r (f := f) (Stopping.registry_start r.process (f.report _))
          (Stopping.processes_start r.process (f.report _)) fun _ =>
            Stopping.isOfTree_start r.process (f.report _)
      · rw [if_neg hr]
        exact .inl ⟨fun hover => (Bool.false_ne_true hover.2).elim, rfl⟩

end BoundedRun

namespace Ledger

variable {l : Ledger} {f g : Fleet}

theorem Balanced.track (h : l.Balanced f.registry) (standing : ProcessId → Standing)
    (id : ProcessId) : (l.track f id).Balanced (f.register standing id).registry := by
  unfold Ledger.track Fleet.register
  cases f.process? id with
  | none => exact h
  | some p => exact h.register

theorem Balanced.untrack (h : l.Balanced f.registry) (hn : f.registry.pids.Nodup)
    (standing : ProcessId → Standing) (id : ProcessId) :
    (l.untrack f id).Balanced (f.unregister standing id).1.registry := by
  unfold Ledger.untrack Fleet.unregister
  cases f.process? id with
  | none => exact h
  | some p => exact h.unregister hn p.pid id

theorem Balanced.pollRun (h : l.Balanced f.registry) (hn : f.registry.pids.Nodup)
    (r : BoundedRun) : (l.pollRun f r).Balanced (r.poll f).1.registry := by
  unfold Ledger.pollRun
  rcases r.registry_poll f with ⟨hkept, hr⟩ | ⟨hover, standing, hr⟩
  · rw [if_neg hkept, hr]
    exact h
  · rw [if_pos hover, hr]
    exact h.untrack hn standing r.process

theorem registry_start (f : Fleet) (settings : Settings) (request : Request) :
    (f.start settings request).1.registry = f.registry := by
  rcases f.start_cases settings request with hs | ⟨launch, ⟨-, -, hs⟩ | ⟨p, notes, -, -, -, -, hs⟩⟩
  · rw [hs]
  · rw [hs]
    rfl
  · rw [hs]
    rfl

theorem Balanced.start (h : l.Balanced f.registry) (settings : Settings)
    (held : ProcessId → Bool) (request : Request) (track : Bool) :
    (l.start f settings request track).Balanced
      (f.startTracked settings held request track).1.registry := by
  have hr := registry_start f settings request
  unfold Ledger.start Fleet.startTracked
  rcases hs : f.start settings request with ⟨g, failure | id⟩ <;> rw [hs] at hr
  · exact hr ▸ h
  · have hg : l.Balanced g.registry := hr ▸ h
    cases track with
    | false => exact hg
    | true => exact hg.track _ id

end Ledger

namespace Session

open Timeline

variable {s : Session} {l : Ledger}

theorem registry_withHandle (name : String) {act : Handle → Going}
    (h : ∀ handle, (act handle).1.fleet.registry = s.fleet.registry) :
    (s.withHandle name act).1.fleet.registry = s.fleet.registry := by
  unfold withHandle
  split
  · exact h _
  · rfl

theorem registry_startLine (process : ProcessId) (report : LineReport) (pattern : PatternText)
    (limit : Number.Seconds) (s : Session) :
    (startLine process report pattern limit s).1.fleet.registry = s.fleet.registry := by
  unfold startLine
  split <;> rfl

theorem registry_pollEnd (process : ProcessId) (report : EndReport) (s : Session) :
    (pollEnd process report s).1.fleet.registry = s.fleet.registry := by
  unfold pollEnd
  split
  · rfl
  · cases report with
    | output => rfl
    | code => rfl
    | checkedOutput command => exact registry_requireSuccess command _ _ s.fleet

theorem balanced_poll (h : l.Balanced s.fleet.registry) (hn : s.fleet.registry.pids.Nodup)
    (a : Activity) : (accountPolled a s l).Balanced (poll a s).1.fleet.registry := by
  cases a with
  | line process report w => exact h
  | ending process report => exact registry_pollEnd process report s ▸ h
  | tree tree => exact h
  | stopping stopping => exact Stopping.registry_poll stopping s.fleet ▸ h
  | run r => exact h.pollRun hn r
  | teardown leaving teardown => exact Teardown.registry_poll teardown s.fleet ▸ h

def Command.reregisters : Command → Bool
  | .start _ _ _ => true
  | .run _ _ _ _ => true
  | .register _ => true
  | .unregister _ => true
  | .teardown => true
  | .leave => true
  | _ => false

theorem registry_start_idle (s : Session) (peers : List Activity) {command : Command}
    (h : command.reregisters = false) :
    (start peers command s).1.fleet.registry = s.fleet.registry := by
  cases command with
  | start name request track => cases h
  | run request limit check track => cases h
  | register name => cases h
  | unregister name => cases h
  | teardown => cases h
  | leave => cases h
  | killTree pid termLimit killLimit => rfl
  | entries => rfl
  | alive => rfl
  | readLine name pattern limit =>
    exact registry_withHandle name fun _ => registry_startLine _ _ _ _ s
  | attach name pattern limit =>
    exact registry_withHandle name fun _ => registry_startLine _ _ _ _ s
  | ready name limit =>
    exact registry_withHandle name fun _ => registry_startLine _ _ _ _ s
  | reload name limit =>
    exact registry_withHandle name fun _ => registry_startLine _ _ _ _ s
  | finalOutput name => exact registry_withHandle name fun _ => registry_pollEnd _ _ s
  | complete name => exact registry_withHandle name fun _ => registry_pollEnd _ _ s
  | wait name => exact registry_withHandle name fun _ => registry_pollEnd _ _ s
  | kill name => exact registry_withHandle name fun _ => Stopping.registry_start _ s.fleet
  | wrap name source command readLimit => exact registry_withHandle source fun _ => rfl
  | output name => exact registry_withHandle name fun _ => rfl
  | state name => exact registry_withHandle name fun _ => rfl
  | drop name => exact registry_withHandle name fun _ => rfl

theorem balanced_start (h : l.Balanced s.fleet.registry) (hf : s.fleet.Registered)
    (peers : List Activity) (command : Command) :
    (accountBegun peers command s l).Balanced (start peers command s).1.fleet.registry := by
  have hkept : ∀ {g : Going}, g.1.fleet.registry = s.fleet.registry →
      l.Balanced g.1.fleet.registry := fun hg => hg ▸ h
  cases command with
  | start name request track =>
    have hs := h.start s.settings (s.holds peers) (s.placed request) (track || s.home.isSome)
    simp only [accountBegun, start, startCommand]
    rcases hr : s.fleet.startTracked s.settings (s.holds peers) (s.placed request)
      (track || s.home.isSome) with ⟨g, failure | id⟩ <;> rw [hr] at hs <;> exact hs
  | run request limit check track =>
    have hs := h.start s.settings (s.holds peers) request track
    have hg :=
      hf.calls (Fleet.calls_startTracked (k := True) trivial .refl s.settings (s.holds peers)
      request track)
    simp only [accountBegun, start, BoundedRun.start]
    rcases hr : s.fleet.startTracked s.settings (s.holds peers) request track with ⟨g, failure | id⟩
    · rw [hr] at hs
      have hnone : l.start s.fleet s.settings request track = l := by
        unfold Fleet.startTracked at hr
        unfold Ledger.start
        rcases hstart : s.fleet.start s.settings request with ⟨f, failure | other⟩
        · rfl
        · rw [hstart] at hr
          cases hr
      exact hnone ▸ hs
    · rw [hr] at hs hg
      exact hs.pollRun hg.unique _
  | register name =>
    simp only [accountBegun, start, withHandle]
    cases s.handle? name with
    | none => exact h
    | some handle => exact h.track _ handle.process
  | unregister name =>
    simp only [accountBegun, start, withHandle]
    cases s.handle? name with
    | none => exact h
    | some handle => exact h.untrack hf.unique _ handle.process
  | teardown => exact (Teardown.registry_start s.termLimit s.killLimit s.fleet).symm ▸ h.handOver
  | leave => exact (Teardown.registry_start s.termLimit s.killLimit s.fleet).symm ▸ h.handOver
  | _ => exact hkept (registry_start_idle s peers rfl)

theorem balanced_later {s : Session} {w : System} {others : List Birth}
    {t u : Timeline (Session × Ledger) Activity Result}
    (ht : Later machinery { state := s.afresh w others } t.plain)
    (hbalanced : t.state.2.Balanced t.state.1.fleet.registry) (h : Later ledgered t u) :
    u.state.2.Balanced u.state.1.fleet.registry := by
  have hregistered : ∀ v, Later ledgered t v → v.state.1.fleet.Registered := fun v hv =>
    have hplain : Later machinery { state := s.afresh w others } v.plain := ht.trans hv.plain
    registered_later hplain
  refine (Later.induction (m := ledgered)
    (P := fun v => Later ledgered t v ∧ v.state.2.Balanced v.state.1.fleet.registry)
    ?_ ?_ ?_ ?_ ?_ ⟨.refl, hbalanced⟩ h).2
  · rintro u step ⟨hlater, hu⟩
    refine ⟨hlater.launch step, ?_⟩
    refine (launch_induction (m := ledgered)
      (P := fun v => v.state.1.fleet.Registered ∧ v.state.2.Balanced v.state.1.fleet.registry)
      (fun v task _ hv => hv) (fun v names hv => hv) ?_ ?_ ⟨hregistered u hlater, hu⟩ step).2
    · rintro v id ⟨hr, hv⟩
      rcases cancelTask_state (m := ledgered) v id with ⟨a, -, hs⟩ | hs
      · rw [hs]
        exact ⟨hr.calls (calls_cancel (k := False) .refl a), by cases a <;> exact hv⟩
      · rw [hs]
        exact ⟨hr, hv⟩
    · rintro v command ⟨hr, hv⟩
      exact ⟨hr.calls (calls_start (k := True) trivial .refl v.activities command),
        balanced_start hv hr v.activities command⟩
  · exact fun u moment ⟨hlater, hu⟩ => ⟨hlater.advance moment, hu⟩
  · exact fun u ⟨hlater, hu⟩ =>
      ⟨hlater.deliver, (Fleet.registry_stepEach _ _ u.state.1.fleet).symm ▸ hu⟩
  · exact fun u ⟨hlater, hu⟩ =>
      ⟨hlater.complete, (Fleet.registry_watchEnds u.state.1.fleet).symm ▸ hu⟩
  · rintro u id ⟨hlater, hu⟩
    refine ⟨hlater.poll id, ?_⟩
    obtain ⟨a, -, hp⟩ | ⟨-, hs, -⟩ := pollTask_cases (m := ledgered) u id
    · rw [hp]
      exact balanced_poll hu (hregistered u hlater).unique a
    · rw [hs]
      exact hu

end Session

end Overseer
