import Overseer.Proofs.Session.IdleActivities
import Overseer.Proofs.Tree.Killing
import Overseer.Proofs.World.ProcessTables

/-!
# Attempts to signal

All that the ending of a tree does to a system is to make attempts to signal (`System.send`). Each
time it goes on it waits, looks at the members, kills those that were left at the last look, or
gives up (`Termination.Sequel`); what it knows of the members is who of them was alive at the last
look. -/

namespace Overseer

open Number

namespace World

inductive Sending where
  | group (pgid : Int) (signal : Signal)
  | single (p : ProcessRef) (signal : Signal)
  deriving DecidableEq, Repr

def Sending.attempt : Sending → Attempt
  | .group pgid signal => .group pgid signal
  | .single p signal => .single p.pid signal

namespace System

def send (w : System) : Sending → System
  | .group pgid signal => (w.signalGroup pgid signal).1
  | .single p signal => (w.signalProcess p signal).1

def sendAll (w : System) (sendings : List Sending) : System := sendings.foldl send w

def alive (w : System) (p : ProcessRef) : Bool := (w.table.deref? p.serial).any (!·.zombie)

theorem signals_endChild (w : System) (c : ChildId) (code : Child → Int) :
    (w.endChild c code).signals = w.signals := by
  unfold endChild
  split
  · rfl
  · split <;> rfl

theorem signals_die (w : System) (serial : Serial) (child : Option ChildId)
    (signal : Option Signal) : (w.die serial child signal).signals = w.signals := by
  cases child <;> cases signal <;> simp [die, signals_endChild]

theorem signals_settleOrPlan_death (w : System) (delay : Nat) (serial : Serial)
    (child : Option ChildId) (signal : Option Signal) :
    (w.settleOrPlan delay (.death serial child signal)).signals = w.signals := by
  unfold settleOrPlan
  split
  · exact signals_die w serial child signal
  · rfl

theorem signals_deliver (w : System) (serial : Serial) (signal : Signal) :
    (w.deliver serial signal).signals = w.signals := by
  unfold deliver
  cases w.table.deref? serial with
  | none => rfl
  | some x =>
    cases signal with
    | term =>
      dsimp only
      split
      · rfl
      · cases x.onTerm with
        | none => rfl
        | some delay => exact signals_settleOrPlan_death _ _ _ _ _
    | kill =>
      dsimp only
      split
      · rfl
      · cases x.onKill with
        | none => rfl
        | some delay => exact signals_settleOrPlan_death _ _ _ _ _

theorem signals_foldl_deliver (signal : Signal) (members : ProcessTable) (w : System) :
    (members.foldl (fun w (p : Process) => w.deliver p.serial signal) w).signals = w.signals := by
  induction members generalizing w with
  | nil => rfl
  | cons p members ih => exact (ih _).trans (signals_deliver w p.serial signal)

theorem signals_send (w : System) (x : Sending) :
    (w.send x).signals = w.signals.push (w.now, x.attempt) := by
  cases x with
  | group pgid signal =>
    simp only [send, signalGroup]
    split
    · rfl
    · rfl
    · exact signals_foldl_deliver signal _ _
  | single p signal =>
    simp only [send, signalProcess]
    split
    · rfl
    · split
      · exact signals_deliver _ _ _
      · rfl

theorem now_send (w : System) (x : Sending) : (w.send x).now = w.now := by
  cases x with
  | group pgid signal => exact (proceeds_signalGroup w pgid signal).now
  | single p signal => exact (proceeds_signalProcess w p signal).now

theorem now_sendAll (w : System) (xs : List Sending) : (w.sendAll xs).now = w.now := by
  induction xs generalizing w with
  | nil => rfl
  | cons x xs ih => exact (ih _).trans (now_send w x)

theorem signals_sendAll (w : System) (xs : List Sending) :
    (w.sendAll xs).signals.toList = w.signals.toList ++ xs.map fun x => (w.now, x.attempt) := by
  induction xs generalizing w with
  | nil => simp [sendAll]
  | cons x xs ih =>
    have hstep : w.sendAll (x :: xs) = (w.send x).sendAll xs := rfl
    rw [hstep, ih, signals_send, now_send]
    simp

theorem sendAll_append (w : System) (xs ys : List Sending) :
    w.sendAll (xs ++ ys) = (w.sendAll xs).sendAll ys := List.foldl_append

theorem evolves_sendAll (w : System) (xs : List Sending) : Evolves w (w.sendAll xs) := by
  refine evolves_foldl (fun w x => ?_) xs w
  cases x with
  | group pgid signal => exact evolves_signalGroup w pgid signal
  | single p signal => exact evolves_signalProcess w p signal

theorem ages_sendAll (w : System) (xs : List Sending) : Ages w (w.sendAll xs) := by
  refine ages_foldl (fun w x => ?_) xs w
  cases x with
  | group pgid signal => exact ages_signalGroup w pgid signal
  | single p signal => exact ages_signalProcess w p signal

variable {w after : System} {p : ProcessRef}

theorem alive_eq_false_iff : w.alive p = false ↔ w.Dead p := by
  unfold alive Dead
  cases w.table.deref? p.serial <;> simp

theorem Evolves.alive (h : w.Evolves after) (hs : w.Sound) (hk : w.Known p.serial)
    (ha : after.alive p = true) : w.alive p = true := by
  by_contra hn
  have hgone := h.gone (hk.gone hs (alive_eq_false_iff.mp (Bool.eq_false_iff.mpr hn)))
  have hdead : after.alive p = false := alive_eq_false_iff.mpr fun x => hgone.dead
  rw [hdead] at ha
  cases ha

end System

end World

namespace Tree

open World

theorem isAlive_eq {w : System} {p : ProcessRef} (h : p.obstacles.status = none) :
    isAlive w p = .ok (w.alive p) := by
  unfold isAlive System.isRunning System.isZombie System.alive
  rw [h]
  cases w.table.deref? p.serial <;> simp

theorem survivors_eq {w : System} {ps : List ProcessRef}
    (h : ∀ p ∈ ps, p.obstacles.status = none) : survivors w ps = .ok (ps.filter w.alive) := by
  induction ps with
  | nil => rfl
  | cons p ps ih =>
    obtain ⟨hp, hps⟩ := List.forall_mem_cons.mp h
    rw [survivors, isAlive_eq hp, ih hps, List.filter_cons]
    rfl

/-- The attempts to signal a tree: first its group, where there are groups, then each member. -/
def volley (windows : Bool) (pid : Int) (ps : List ProcessRef) (signal : Signal) : List Sending :=
  (if windows then [] else [.group pid signal]) ++ ps.map (.single · signal)

theorem system_signalGroup (s : Scene) (pgid : Int) (signal : Signal) :
    (signalGroup s pgid signal).system = s.system.send (.group pgid signal) := by
  simp only [signalGroup, System.send]
  rcases s.system.signalGroup pgid signal with ⟨system, ⟨_ | number⟩ | ⟨⟩⟩
  · rfl
  · dsimp only
    split <;> rfl
  · rfl

theorem system_signalOne (s : Scene) (p : ProcessRef) (signal : Signal) :
    (signalOne signal s p).system = s.system.send (.single p signal) := by
  simp only [signalOne, System.send]
  rcases s.system.signalProcess p signal with ⟨system, ⟨_ | _⟩ | ⟨⟩⟩ <;> rfl

theorem system_signalAll (s : Scene) (pid : Int) (ps : List ProcessRef) (signal : Signal) :
    (signalAll s pid ps signal).system =
      s.system.sendAll (volley s.system.windows pid ps signal) := by
  have hall : ∀ (ps : List ProcessRef) (s : Scene),
      (ps.foldl (signalOne signal) s).system = s.system.sendAll (ps.map (.single · signal)) := by
    intro ps
    induction ps with
    | nil => exact fun s => rfl
    | cons p ps ih =>
      intro s
      rw [List.foldl_cons, ih, system_signalOne]
      rfl
  unfold signalAll volley
  dsimp only
  rw [hall, System.sendAll_append]
  cases s.system.windows with
  | true => rfl
  | false => exact congrArg (System.sendAll · _) (system_signalGroup s pid signal)

namespace Termination

def leftover (pid : Int) (count : Nat) : Failure :=
  .cleanup pid s!"{count} process(es) still alive after kill"

inductive AfterKill (t : Termination) (alive : List ProcessRef) (deadline : Option Instant)
    (w : System) : Progress Termination Result → Prop where
  | gone : alive.filter w.alive = [] → AfterKill t alive deadline w (.done (.ok ()))
  | left : alive.filter w.alive ≠ [] → Instant.reached w.now deadline = true →
      AfterKill t alive deadline w
        (.done (.error (leftover t.pid (alive.filter w.alive).length)))
  | wait : alive.filter w.alive ≠ [] → Instant.reached w.now deadline = false →
      AfterKill t alive deadline w (.pending
        { t with vigil := some ⟨.killed, alive.filter w.alive, w.now + lookInterval, deadline⟩ })

/-- What comes of killing survivors: the system that this leads to, and the look that follows. -/
structure Kills (t : Termination) (alive : List ProcessRef) (w after : System)
    (progress : Progress Termination Result) : Prop where
  system : after = w.sendAll (volley w.windows t.pid alive .kill)
  look : AfterKill t alive (t.killLimit.deadline w.now) after progress

inductive AfterAsk (t : Termination) (alive : List ProcessRef) (deadline : Option Instant)
    (w after : System) : Progress Termination Result → Prop where
  | gone : after = w → alive.filter w.alive = [] →
      AfterAsk t alive deadline w after (.done (.ok ()))
  | kill {progress} : alive.filter w.alive ≠ [] → Instant.reached w.now deadline = true →
      Kills t (alive.filter w.alive) w after progress →
      AfterAsk t alive deadline w after progress
  | wait : after = w → alive.filter w.alive ≠ [] → Instant.reached w.now deadline = false →
      AfterAsk t alive deadline w after (.pending
        { t with vigil := some ⟨.asked, alive.filter w.alive, w.now + lookInterval, deadline⟩ })

inductive Sequel (t : Termination) (v : Vigil) (w after : System) :
    Progress Termination Result → Prop where
  | kill {progress} : v.stage = .asked → Instant.reached w.now v.deadline = true →
      Kills t v.alive w after progress → Sequel t v w after progress
  | left : after = w → v.stage = .killed → Instant.reached w.now v.deadline = true →
      Sequel t v w after (.done (.error (leftover t.pid v.alive.length)))
  | lookAsked {progress} : v.stage = .asked → Instant.reached w.now v.deadline = false →
      AfterAsk t v.alive v.deadline w after progress → Sequel t v w after progress
  | lookKilled {progress} : after = w → v.stage = .killed →
      Instant.reached w.now v.deadline = false →
      AfterKill t v.alive v.deadline w progress → Sequel t v w after progress
  | wait : after = w → Instant.reached w.now v.deadline = false → Sequel t v w after (.pending t)

section

variable {t : Termination} {alive : List ProcessRef} {s : Scene}

theorem afterKill_lookAtKilled (h : ∀ p ∈ alive, p.obstacles.status = none) (t : Termination)
    (deadline : Option Instant) (s : Scene) :
    (t.lookAtKilled alive deadline s).1.system = s.system ∧
      AfterKill t alive deadline s.system (t.lookAtKilled alive deadline s).2 := by
  unfold lookAtKilled
  rw [survivors_eq h]
  split
  next failure hl => cases hl
  next hl => exact ⟨rfl, .gone (Except.ok.inj hl)⟩
  next left hne hl =>
    obtain rfl := Except.ok.inj hl
    cases hr : Instant.reached s.now deadline with
    | true => exact ⟨rfl, .left hne hr⟩
    | false => exact ⟨rfl, .wait hne hr⟩

theorem kills_kill (h : ∀ p ∈ alive, p.obstacles.status = none) (t : Termination) (s : Scene) :
    Kills t alive s.system (t.kill alive s).1.system (t.kill alive s).2 := by
  let killing : Scene :=
    s.report [note s!"Force killing process tree pid={t.pid} survivors={pidList alive}"]
  let killed := signalAll killing t.pid alive .kill
  have hsystem : killed.system = s.system.sendAll (volley s.system.windows t.pid alive .kill) :=
    system_signalAll killing t.pid alive .kill
  have hnow : killed.now = s.now := now_signalAll killing t.pid alive .kill
  obtain ⟨hsame, hlook⟩ := afterKill_lookAtKilled h t (t.killLimit.deadline killed.now) killed
  have hkill : t.kill alive s = t.lookAtKilled alive (t.killLimit.deadline killed.now) killed := rfl
  rw [hsystem] at hsame hlook
  rw [hnow] at hkill hsame hlook
  rw [hkill]
  exact ⟨hsame, hsame ▸ hlook⟩

theorem afterAsk_lookAtAsked (h : ∀ p ∈ alive, p.obstacles.status = none) (t : Termination)
    (deadline : Option Instant) (s : Scene) :
    AfterAsk t alive deadline s.system (t.lookAtAsked alive deadline s).1.system
      (t.lookAtAsked alive deadline s).2 := by
  unfold lookAtAsked
  rw [survivors_eq h]
  split
  next failure hl => cases hl
  next hl => exact .gone rfl (Except.ok.inj hl)
  next left hne hl =>
    obtain rfl := Except.ok.inj hl
    cases hr : Instant.reached s.now deadline with
    | true => exact .kill hne hr (kills_kill (fun p hp => h p (List.mem_filter.mp hp).1) t s)
    | false => exact .wait rfl hne hr

theorem sequel_keepVigil {v : Vigil} (h : ∀ p ∈ v.alive, p.obstacles.status = none)
    (t : Termination) (s : Scene) :
    Sequel t v s.system (t.keepVigil v s).1.system (t.keepVigil v s).2 := by
  unfold keepVigil
  cases hr : Instant.reached s.now v.deadline with
  | true =>
    cases hs : v.stage with
    | asked => exact .kill hs hr (kills_kill h t s)
    | killed => exact .left rfl hs hr
  | false =>
    by_cases hlook : v.nextLook ≤ s.now
    · rw [if_neg Bool.false_ne_true, if_pos hlook]
      cases hs : v.stage with
      | asked => exact .lookAsked hs hr (afterAsk_lookAtAsked h t v.deadline s)
      | killed =>
        obtain ⟨hsame, hafter⟩ := afterKill_lookAtKilled h t v.deadline s
        exact .lookKilled hsame hs hr hafter
    · rw [if_neg Bool.false_ne_true, if_neg hlook]
      exact .wait rfl hr

/-- The attempts at the beginning are addressed to the members that have been found. -/
theorem afterAsk_start {found : List ProcessRef} (hm : (members s.system t.pid).1 = .ok found)
    (hne : found ≠ []) (hstatus : ∀ p ∈ found, p.obstacles.status = none) :
    AfterAsk t found (t.termLimit.deadline s.now)
      (s.system.sendAll (volley s.system.windows t.pid found .term))
      (t.start s).1.system (t.start s).2 := by
  rcases hr : members s.system t.pid with ⟨result, notes⟩
  rw [hr] at hm
  obtain rfl : result = .ok found := hm
  let asking : Scene := (s.report notes).report
    [note s!"Terminating process tree pid={t.pid} members={sortedPidList found}"]
  let asked := signalAll asking t.pid found .term
  have hsystem : asked.system = s.system.sendAll (volley s.system.windows t.pid found .term) :=
    system_signalAll asking t.pid found .term
  have hnow : asked.now = s.now := now_signalAll asking t.pid found .term
  have hlook := afterAsk_lookAtAsked hstatus t (t.termLimit.deadline asked.now) asked
  have hstart : t.start s = t.lookAtAsked found (t.termLimit.deadline asked.now) asked := by
    unfold start
    rw [hr]
    cases found with
    | nil => exact absurd rfl hne
    | cons p ps => rfl
  rw [hstart, ← hnow, ← hsystem]
  exact hlook

theorem start_of_none (t : Termination) (hm : ∀ p ps, (members s.system t.pid).1 ≠ .ok (p :: ps)) :
    (t.start s).1.system = s.system ∧
      (t.start s).2 = .done ((members s.system t.pid).1.map fun _ => ()) := by
  rcases hr : members s.system t.pid with ⟨result, notes⟩
  rw [hr] at hm
  unfold start
  rw [hr]
  match result with
  | .error failure => exact ⟨rfl, rfl⟩
  | .ok [] => exact ⟨rfl, rfl⟩
  | .ok (p :: ps) => exact absurd rfl (hm p ps)

end

end Termination

end Tree

end Overseer
