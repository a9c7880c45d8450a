import Overseer.Proofs.Tree.Promptness

/-!
# What a wait for members sees

A wait for members looks at them when it begins and then every `lookInterval`, and takes no notice
of them in between. So when a look finds nobody it is over at that look, and when the limit runs out
first it is over at that very moment, with those that the last look found alive (`wait_observes`).
What follows is the same in both stages of the ending of a tree: it depends on who is left
(`Termination.resume`). -/

namespace Overseer

open Overseer.Tree Number World Timeline

namespace Tree

namespace Termination

def look (t : Termination) (stage : Stage) (ps : List ProcessRef) (deadline : Option Instant)
    (s : Scene) : Scene × Progress Termination Result :=
  match stage with
  | .asked => t.lookAtAsked ps deadline s
  | .killed => t.lookAtKilled ps deadline s

def resume (t : Termination) (stage : Stage) (left : List ProcessRef) (s : Scene) :
    Scene × Progress Termination Result :=
  match stage with
  | .asked =>
    if left = [] then
      (s.report [note s!"Process tree terminated gracefully pid={t.pid}"], .done (.ok ()))
    else t.kill left s
  | .killed => if left = [] then (s, .done (.ok ())) else t.giveUp left s

variable {t : Termination} {stage : Stage} {ps : List ProcessRef} {s : Scene} {v : Vigil}

/-- A look ends the wait if it finds nobody, or if it comes when the limit has run out. -/
theorem look_eq (h : ∀ p ∈ ps, p.obstacles.status = none) (t : Termination) (stage : Stage)
    (deadline : Option Instant) (s : Scene) :
    t.look stage ps deadline s =
      if ps.filter s.system.alive = [] ∨ Instant.reached s.now deadline = true then
        t.resume stage (ps.filter s.system.alive) s
      else
        (s, .pending { t with
          vigil := some ⟨stage, ps.filter s.system.alive, s.now + lookInterval, deadline⟩ }) := by
  have hseen := survivors_eq (w := s.system) h
  generalize ps.filter s.system.alive = alive at hseen ⊢
  cases stage with
  | asked =>
    simp only [look, lookAtAsked, resume, hseen]
    cases alive with
    | nil => simp
    | cons p alive => simp
  | killed =>
    simp only [look, lookAtKilled, resume, hseen]
    cases alive with
    | nil => simp
    | cons p alive => simp

theorem resume_vigil (t : Termination) (vigil : Option Vigil) (stage : Stage)
    (left : List ProcessRef) (s : Scene) :
    { t with vigil }.resume stage left s = t.resume stage left s := by
  cases stage <;> rfl

/-- How a wait goes on: when the limit has run out the last look counts, and before that nothing
happens until it is time for the next look. -/
theorem poll_eq (hne : v.alive ≠ []) (h : ∀ p ∈ v.alive, p.obstacles.status = none)
    (t : Termination) (s : Scene) :
    { t with vigil := some v }.poll s =
      if Instant.reached s.now v.deadline = true then t.resume v.stage v.alive s
      else if v.nextLook ≤ s.now then
        if v.alive.filter s.system.alive = [] then t.resume v.stage [] s
        else
          (s, .pending { t with
            vigil := some
              ⟨v.stage, v.alive.filter s.system.alive, s.now + lookInterval, v.deadline⟩ })
      else (s, .pending { t with vigil := some v }) := by
  have hkeep : { t with vigil := some v }.keepVigil v s =
      if Instant.reached s.now v.deadline = true then t.resume v.stage v.alive s
      else if v.nextLook ≤ s.now then
        { t with vigil := some v }.look v.stage v.alive v.deadline s
      else (s, .pending { t with vigil := some v }) := by
    rw [← resume_vigil t (some v)]
    unfold keepVigil resume look
    rcases v with ⟨stage, alive, nextLook, deadline⟩
    cases stage <;> simp [hne]
  refine hkeep.trans ?_
  by_cases hr : Instant.reached s.now v.deadline = true
  · rw [if_pos hr, if_pos hr]
  · have hlook := look_eq h { t with vigil := some v } v.stage v.deadline s
    rw [if_neg hr, if_neg hr, hlook, resume_vigil]
    congr 1
    by_cases hnone : v.alive.filter s.system.alive = []
    · rw [if_pos (.inl hnone), if_pos hnone, hnone]
    · rw [if_neg (not_or.mpr ⟨hnone, hr⟩), if_neg hnone]

end Termination

def systemAt? (turns : List (Session × Session)) (time : Instant) : Option System :=
  (turns.find? (·.1.now == time)).map (·.1.system)

/-- Those of some processes that are alive when a task first goes on at a moment. -/
def Sighted (turns : List (Session × Session)) (ps : List ProcessRef) (time : Instant)
    (alive : List ProcessRef) : Prop :=
  ∃ w, systemAt? turns time = some w ∧ alive = ps.filter w.alive

/-- When a wait that began at a moment is over, and who is left by then as far as it has seen. -/
inductive Waited (turns : List (Session × Session)) (ps : List ProcessRef) (start : Instant)
    (deadline : Option Instant) : Instant → List ProcessRef → Prop
  | spent {left : List ProcessRef} : deadline = some start → Sighted turns ps start left →
      Waited turns ps start deadline start left
  | gone {k : Nat} : (∀ d, deadline = some d → start + k * lookInterval < d) →
      (∀ j < k, ∃ alive, Sighted turns ps (start + j * lookInterval) alive ∧ alive ≠ []) →
      Sighted turns ps (start + k * lookInterval) [] →
      Waited turns ps start deadline (start + k * lookInterval) []
  | left {k : Nat} {d : Instant} {left : List ProcessRef} : deadline = some d →
      start + k * lookInterval < d → d ≤ start + (k + 1) * lookInterval →
      (∀ j < k, ∃ alive, Sighted turns ps (start + j * lookInterval) alive ∧ alive ≠ []) →
      Sighted turns ps (start + k * lookInterval) left → left ≠ [] →
      Waited turns ps start deadline d left

section

variable {turns : List (Session × Session)} {ps left alive : List ProcessRef}
  {start time : Instant} {deadline : Option Instant}

theorem Sighted.append (h : Sighted turns ps time alive) (more : List (Session × Session)) :
    Sighted (turns ++ more) ps time alive := by
  obtain ⟨w, hw, hseen⟩ := h
  obtain ⟨turn, hturn, rfl⟩ := Option.map_eq_some_iff.mp hw
  refine ⟨_, ?_, hseen⟩
  rw [systemAt?, List.find?_append, hturn]
  rfl

theorem sighted_last (turn : Session × Session) (h : ∀ other ∈ turns, other.1.now ≠ turn.1.now)
    (ps : List ProcessRef) :
    Sighted (turns ++ [turn]) ps turn.1.now (ps.filter turn.1.system.alive) := by
  refine ⟨turn.1.system, ?_, rfl⟩
  have hnone : turns.find? (·.1.now == turn.1.now) = none := by
    rw [List.find?_eq_none]
    exact fun other hother heq => h other hother (eq_of_beq heq)
  rw [systemAt?, List.find?_append, hnone]
  simp

theorem Waited.append (h : Waited turns ps start deadline time left)
    (more : List (Session × Session)) : Waited (turns ++ more) ps start deadline time left := by
  have hsome : ∀ {k : Nat}, (∀ j < k, ∃ alive,
      Sighted turns ps (start + j * lookInterval) alive ∧ alive ≠ []) →
      ∀ j < k, ∃ alive,
        Sighted (turns ++ more) ps (start + j * lookInterval) alive ∧ alive ≠ [] := by
    intro k hall j hj
    obtain ⟨alive, hseen, hne⟩ := hall j hj
    exact ⟨alive, hseen.append more, hne⟩
  cases h with
  | spent hdeadline hseen => exact .spent hdeadline (hseen.append more)
  | gone hbefore hsomebody hseen => exact .gone hbefore (hsome hsomebody) (hseen.append more)
  | left hdeadline hbefore hafter hsomebody hseen hne =>
    exact .left hdeadline hbefore hafter (hsome hsomebody) (hseen.append more) hne

theorem Waited.le_deadline (h : Waited turns ps start deadline time left) {d : Instant}
    (hd : deadline = some d) : time ≤ d := by
  cases h with
  | spent hdeadline => exact Nat.le_of_eq (Option.some.inj (hdeadline.symm.trans hd))
  | gone hbefore => exact Nat.le_of_lt (hbefore d hd)
  | left hdeadline => exact Nat.le_of_eq (Option.some.inj (hdeadline.symm.trans hd))

end

end Tree

namespace Session

def onTree (act : Scene → Scene × Progress Termination Termination.Result) (s : Session) : Going :=
  let (scene, progress) := act s.fleet.scene
  s.goOn .tree ({ s.fleet with scene }, progress)

/-- A timeline with one more task, which has just begun to wait for some processes. -/
def awaiting (t : Timeline Session Activity Result) (tree : Termination) (stage : Stage)
    (ps : List ProcessRef) (limit : Seconds) : Timeline Session Activity Result :=
  let (state, progress) := onTree (tree.look stage ps (limit.deadline t.state.now)) t.state
  ({ t with state }.push (.ofProgress t.state.now progress)).1

/-- Until a moment a task has only waited; then it goes on with what is done after a wait. -/
def Resumed (tree : Termination) (stage : Stage) (left : List ProcessRef) (time : Instant)
    (turns : List (Session × Session)) (task : Task Activity Result) : Prop :=
  ∃ idle turn more, turns = idle ++ turn :: more ∧ (∀ other ∈ idle, other.2 = other.1) ∧
    turn.1.now = time ∧ turn.2 = (onTree (tree.resume stage left) turn.1).1 ∧
    ∀ result, (onTree (tree.resume stage left) turn.1).2 = .done result →
      task = .ended time (.result result)

section

variable {tree : Termination} {stage : Stage} {ps left alive : List ProcessRef}
  {start time : Instant} {deadline : Option Instant} {turns : List (Session × Session)}
  {task : Task Activity Result} {s : Session} {k : Nat}

/-- What happens after the end of a wait does not change how it has ended. -/
theorem Resumed.goOn {errand : Errand Activity}
    (h : Resumed tree stage left time turns (.pending errand)) (more : List (Session × Session))
    (task : Task Activity Result) : Resumed tree stage left time (turns ++ more) task := by
  obtain ⟨idle, turn, rest, rfl, hidle, htime, hstate, hdone⟩ := h
  refine ⟨idle, turn, rest ++ more, by simp, hidle, htime, hstate, fun result hresult => ?_⟩
  cases hdone result hresult

theorem resumed_last (turn : Session × Session) (hidle : ∀ other ∈ turns, other.2 = other.1)
    (hstate : turn.2 = (onTree (tree.resume stage left) turn.1).1) :
    Resumed tree stage left turn.1.now (turns ++ [turn])
      (.ofProgress turn.1.now (onTree (tree.resume stage left) turn.1).2) := by
  refine ⟨turns, turn, [], rfl, hidle, rfl, hstate, fun result hresult => ?_⟩
  rw [hresult]
  rfl

def Over (tree : Termination) (stage : Stage) (ps : List ProcessRef) (start : Instant)
    (deadline : Option Instant) (turns : List (Session × Session)) (task : Task Activity Result) :
    Prop :=
  ∃ time left, Waited turns ps start deadline time left ∧ Resumed tree stage left time turns task

theorem Over.goOn {errand : Errand Activity}
    (h : Over tree stage ps start deadline turns (.pending errand))
    (more : List (Session × Session)) (task : Task Activity Result) :
    Over tree stage ps start deadline (turns ++ more) task := by
  obtain ⟨time, left, hwaited, hresumed⟩ := h
  exact ⟨time, left, hwaited.append more, hresumed.goOn more task⟩

/-- A wait that goes on after the look that so many others came before. Nobody whom that look has
not found alive is alive. -/
structure Looked (turns : List (Session × Session)) (ps : List ProcessRef) (start : Instant)
    (deadline : Option Instant) (k : Nat) (alive : List ProcessRef) (s : Session) : Prop where
  idle : ∀ turn ∈ turns, turn.2 = turn.1
  past : ∀ turn ∈ turns, turn.1.now < start + (k + 1) * lookInterval
  earlier : ∀ j < k, ∃ alive, Sighted turns ps (start + j * lookInterval) alive ∧ alive ≠ []
  seen : Sighted turns ps (start + k * lookInterval) alive
  ne_nil : alive ≠ []
  before : ∀ d, deadline = some d → start + k * lookInterval < d
  within : ∀ d, deadline = some d → s.now ≤ d
  next : s.now ≤ start + (k + 1) * lookInterval
  living : ∀ p ∈ ps, s.system.alive p = true → p ∈ alive

theorem Looked.somebody (h : Looked turns ps start deadline k alive s) :
    ∀ j < k + 1, ∃ alive, Sighted turns ps (start + j * lookInterval) alive ∧ alive ≠ [] := by
  intro j hj
  rcases Nat.lt_succ_iff_lt_or_eq.mp hj with hlt | rfl
  · exact h.earlier j hlt
  · exact ⟨alive, h.seen, h.ne_nil⟩

theorem Looked.somebody_until (h : Looked turns ps start deadline k alive s)
    (hearly : s.now < start + (k + 1) * lookInterval) (j : Nat)
    (hj : start + j * lookInterval ≤ s.now) :
    ∃ alive, Sighted turns ps (start + j * lookInterval) alive ∧ alive ≠ [] :=
  h.somebody j <| Nat.lt_of_mul_lt_mul_right <|
    Nat.lt_of_add_lt_add_left (Nat.lt_of_le_of_lt hj hearly)

inductive Lookout (tree : Termination) (stage : Stage) (ps : List ProcessRef) (start : Instant)
    (deadline : Option Instant) (turns : List (Session × Session)) (s : Session) :
    Task Activity Result → Prop where
  | waiting {k : Nat} {alive : List ProcessRef} : Looked turns ps start deadline k alive s →
      Lookout tree stage ps start deadline turns s (.pending (.act (.tree { tree with
        vigil := some ⟨stage, alive, start + (k + 1) * lookInterval, deadline⟩ })))
  | finished {task : Task Activity Result} : Over tree stage ps start deadline turns task →
      Lookout tree stage ps start deadline turns s task
  | cancelled {time : Instant} :
    Lookout tree stage ps start deadline turns s (.ended time .cancelled)

theorem lt_next_look (start : Instant) (k : Nat) :
    start + k * lookInterval < start + (k + 1) * lookInterval := by
  rw [Nat.succ_mul, ← Nat.add_assoc]
  exact Nat.lt_add_of_pos_right (by decide)

/-- A wait wakes up for its next look, or else at the end of its limit. -/
theorem exists_wake (tree : Termination) (stage : Stage) (alive : List ProcessRef)
    (nextLook : Instant) (deadline : Option Instant) :
    let task : Task Activity Result :=
      .pending (.act (.tree { tree with vigil := some ⟨stage, alive, nextLook, deadline⟩ }))
    ∃ next, task.wake Session.wake = some next ∧ next ≤ nextLook ∧
      ∀ d, deadline = some d → next ≤ d := by
  intro task
  obtain ⟨next, hle, hnext⟩ := Instant.earlier_le_left (a := some nextLook) (b := deadline) rfl
  refine ⟨next, hnext, hle, fun d hd => ?_⟩
  obtain ⟨other, hother, hsame⟩ := Instant.earlier_le_right (a := some nextLook) hd
  rwa [Option.some.inj (hnext.symm.trans hsame)]

theorem onTree_congr {f g : Scene → Scene × Progress Termination Termination.Result}
    (h : f s.fleet.scene = g s.fleet.scene) : onTree f s = onTree g s := by
  unfold onTree
  rw [h]

theorem onTree_pending {f : Scene → Scene × Progress Termination Termination.Result}
    (h : f s.fleet.scene = (s.fleet.scene, .pending tree)) :
    onTree f s = (s, .pending (.tree tree)) := by
  unfold onTree
  rw [h]
  rfl

/-- A look at those who were left at the last one finds all that are alive. -/
theorem Looked.filter_eq (h : Looked turns ps start deadline k alive s) :
    alive.filter s.system.alive = ps.filter s.system.alive := by
  obtain ⟨w, -, rfl⟩ := h.seen
  rw [List.filter_filter]
  refine List.filter_congr fun p hp => ?_
  cases hs : s.system.alive p with
  | false => rfl
  | true => exact (List.mem_filter.mp (h.living p hp hs)).2

theorem Looked.status (h : Looked turns ps start deadline k alive s)
    (hstatus : ∀ p ∈ ps, p.obstacles.status = none) : ∀ p ∈ alive, p.obstacles.status = none := by
  obtain ⟨w, -, rfl⟩ := h.seen
  exact fun p hp => hstatus p (List.mem_filter.mp hp).1

theorem Looked.new (h : Looked turns ps start deadline k alive s)
    (hnow : s.now = start + (k + 1) * lookInterval) : ∀ turn ∈ turns, turn.1.now ≠ s.now :=
  fun turn hturn heq => Nat.lt_irrefl _ (hnow ▸ heq ▸ h.past turn hturn)

theorem Looked.gone (h : Looked turns ps start deadline k alive s)
    (hnow : s.now = start + (k + 1) * lookInterval)
    (hbefore : ∀ d, deadline = some d → s.now < d) (hnone : ps.filter s.system.alive = [])
    (after : Session) : Waited (turns ++ [(s, after)]) ps start deadline s.now [] := by
  have hseen := sighted_last (s, after) (h.new hnow) ps
  rw [hnone, hnow] at hseen
  rw [hnow] at hbefore ⊢
  refine .gone hbefore (fun j hj => ?_) hseen
  obtain ⟨alive, hlook, hsome⟩ := h.somebody j hj
  exact ⟨alive, hlook.append _, hsome⟩

theorem Looked.wait (h : Looked turns ps start deadline k alive s)
    (hearly : s.now < start + (k + 1) * lookInterval) :
    Looked (turns ++ [(s, s)]) ps start deadline k alive s where
  idle turn hturn := by
    rcases List.mem_append.mp hturn with hturn | hturn
    · exact h.idle turn hturn
    · rw [List.mem_singleton.mp hturn]
  past turn hturn := by
    rcases List.mem_append.mp hturn with hturn | hturn
    · exact h.past turn hturn
    · rw [List.mem_singleton.mp hturn]
      exact hearly
  earlier j hj := by
    obtain ⟨alive, hseen, hne⟩ := h.earlier j hj
    exact ⟨alive, hseen.append _, hne⟩
  seen := h.seen.append _
  ne_nil := h.ne_nil
  before := h.before
  within := h.within
  next := h.next
  living := h.living

theorem Looked.look (h : Looked turns ps start deadline k alive s)
    (hnow : s.now = start + (k + 1) * lookInterval)
    (hbefore : ∀ d, deadline = some d → s.now < d) (hne : ps.filter s.system.alive ≠ []) :
    Looked (turns ++ [(s, s)]) ps start deadline (k + 1) (ps.filter s.system.alive) s := by
  have hlater := lt_next_look start (k + 1)
  refine
    { idle := fun turn hturn => ?_
      past := fun turn hturn => ?_
      earlier := fun j hj => ?_
      seen := hnow ▸ sighted_last (s, s) (h.new hnow) ps
      ne_nil := hne
      before := hnow ▸ hbefore
      within := fun d hd => Nat.le_of_lt (hbefore d hd)
      next := by
        rw [hnow]
        exact Nat.le_of_lt hlater
      living := fun p hp halive => List.mem_filter.mpr ⟨hp, halive⟩ }
  · rcases List.mem_append.mp hturn with hturn | hturn
    · exact h.idle turn hturn
    · rw [List.mem_singleton.mp hturn]
  · rcases List.mem_append.mp hturn with hturn | hturn
    · exact Nat.lt_trans (h.past turn hturn) hlater
    · rw [List.mem_singleton.mp hturn, hnow]
      exact hlater
  · obtain ⟨alive, hseen, hsome⟩ := h.somebody j hj
    exact ⟨alive, hseen.append _, hsome⟩

/-- The task goes on: the limit has run out, or it is time for a look, or neither. -/
theorem Looked.goOn (h : Looked turns ps start deadline k alive s)
    (hstatus : ∀ p ∈ ps, p.obstacles.status = none) (tree : Termination) (stage : Stage) :
    let v : Vigil := ⟨stage, alive, start + (k + 1) * lookInterval, deadline⟩
    let going := pollTree { tree with vigil := some v } s
    Lookout tree stage ps start deadline (turns ++ [(s, going.1)]) going.1
      (.ofProgress s.now going.2) := by
  intro v going
  have hpoll : { tree with vigil := some v }.poll s.fleet.scene =
      if Instant.reached s.now deadline = true then tree.resume stage alive s.fleet.scene
      else if start + (k + 1) * lookInterval ≤ s.now then
        if ps.filter s.system.alive = [] then tree.resume stage [] s.fleet.scene
        else
          (s.fleet.scene, .pending { tree with
            vigil := some ⟨stage, ps.filter s.system.alive, s.now + lookInterval, deadline⟩ })
      else (s.fleet.scene, .pending { tree with vigil := some v }) := by
    rw [← h.filter_eq]
    exact Termination.poll_eq (v := v) h.ne_nil (h.status hstatus) tree s.fleet.scene
  have hgoing : going = onTree { tree with vigil := some v }.poll s := rfl
  have hresumed : ∀ left, { tree with vigil := some v }.poll s.fleet.scene =
      tree.resume stage left s.fleet.scene →
      Resumed tree stage left s.now (turns ++ [(s, going.1)]) (.ofProgress s.now going.2) := by
    intro left heq
    rw [hgoing, onTree_congr heq]
    exact resumed_last (s, _) h.idle rfl
  by_cases hreached : Instant.reached s.now deadline = true
  · -- the last look counts
    rw [if_pos hreached] at hpoll
    obtain ⟨d, hd, hle⟩ := Instant.reached_eq_true_iff.mp hreached
    have hnow : d = s.now := Nat.le_antisymm hle (h.within d hd)
    have hwaited := Waited.left hd (h.before d hd) (hnow ▸ h.next) h.earlier h.seen h.ne_nil
    rw [hnow] at hwaited
    exact .finished ⟨s.now, alive, hwaited.append _, hresumed alive hpoll⟩
  -- the limit has not run out: it is time for a look, or for nothing yet
  · have hbefore := Instant.reached_eq_false_iff.mp (Bool.not_eq_true _ ▸ hreached)
    rw [if_neg hreached] at hpoll
    by_cases hdue : start + (k + 1) * lookInterval ≤ s.now
    · have hnow : s.now = start + (k + 1) * lookInterval := Nat.le_antisymm h.next hdue
      rw [if_pos hdue] at hpoll
      by_cases hnone : ps.filter s.system.alive = []
      · rw [if_pos hnone] at hpoll
        exact .finished ⟨s.now, [], h.gone hnow hbefore hnone _, hresumed [] hpoll⟩
      · rw [if_neg hnone, hnow, Nat.add_assoc, ← Nat.succ_mul] at hpoll
        rw [hgoing, onTree_pending hpoll]
        exact .waiting (h.look hnow hbefore hnone)
    · rw [if_neg hdue] at hpoll
      rw [hgoing, onTree_pending hpoll]
      exact .waiting (h.wait (Nat.not_le.mp hdue))

theorem sighted_first (s after : Session) (ps : List ProcessRef) :
    Sighted [(s, after)] ps (s.now + 0 * lookInterval) (ps.filter s.system.alive) := by
  rw [Nat.zero_mul]
  exact sighted_last (s, after) (List.forall_mem_nil _) ps

theorem waited_first (hle : ∀ d, deadline = some d → s.now ≤ d)
    (hover : ps.filter s.system.alive = [] ∨ Instant.reached s.now deadline = true)
    (after : Session) :
    Waited [(s, after)] ps s.now deadline s.now (ps.filter s.system.alive) := by
  have hseen := sighted_first s after ps
  by_cases hreached : Instant.reached s.now deadline = true
  · obtain ⟨d, hd, hpast⟩ := Instant.reached_eq_true_iff.mp hreached
    have hnow : d = s.now := Nat.le_antisymm hpast (hle d hd)
    rw [Nat.zero_mul] at hseen
    exact .spent (hnow ▸ hd) hseen
  · have hnone := hover.resolve_right hreached
    have hbefore := Instant.reached_eq_false_iff.mp (Bool.not_eq_true _ ▸ hreached)
    have hgone : Waited [(s, after)] ps s.now deadline (s.now + 0 * lookInterval) [] :=
      .gone (by rwa [Nat.zero_mul]) (fun j hj => absurd hj (Nat.not_lt_zero _)) (hnone ▸ hseen)
    rwa [Nat.zero_mul, ← hnone] at hgone

theorem looked_first (hsome : ps.filter s.system.alive ≠ [])
    (hbefore : ∀ d, deadline = some d → s.now < d) :
    Looked [(s, s)] ps s.now deadline 0 (ps.filter s.system.alive) s := by
  have hnext : s.now < s.now + (0 + 1) * lookInterval := by
    rw [Nat.zero_add, Nat.one_mul]
    exact Nat.lt_add_of_pos_right (by decide)
  exact
    { idle := fun turn hturn => by rw [List.mem_singleton.mp hturn]
      past := fun turn hturn => by
        rw [List.mem_singleton.mp hturn]
        exact hnext
      earlier := fun j hj => absurd hj (Nat.not_lt_zero _)
      seen := sighted_first s s ps
      ne_nil := hsome
      before := by
        rw [Nat.zero_mul]
        exact hbefore
      within := fun d hd => Nat.le_of_lt (hbefore d hd)
      next := Nat.le_of_lt hnext
      living := fun p hp halive => List.mem_filter.mpr ⟨hp, halive⟩ }

theorem lookout_look (hstatus : ∀ p ∈ ps, p.obstacles.status = none) (tree : Termination)
    (stage : Stage) (hle : ∀ d, deadline = some d → s.now ≤ d) :
    let going := onTree (tree.look stage ps deadline) s
    Lookout tree stage ps s.now deadline [(s, going.1)] going.1 (.ofProgress s.now going.2) := by
  intro going
  have hlook : tree.look stage ps deadline s.fleet.scene =
      if ps.filter s.system.alive = [] ∨ Instant.reached s.now deadline = true then
        tree.resume stage (ps.filter s.system.alive) s.fleet.scene
      else
        (s.fleet.scene, .pending { tree with
          vigil := some ⟨stage, ps.filter s.system.alive, s.now + lookInterval, deadline⟩ }) :=
    Termination.look_eq hstatus tree stage deadline s.fleet.scene
  have hgoing : going = onTree (tree.look stage ps deadline) s := rfl
  by_cases hover : ps.filter s.system.alive = [] ∨ Instant.reached s.now deadline = true
  · rw [if_pos hover] at hlook
    have hresumed := resumed_last (s, going.1) (List.forall_mem_nil _)
      (congrArg Prod.fst (hgoing.trans (onTree_congr hlook)))
    rw [← onTree_congr hlook] at hresumed
    exact .finished ⟨s.now, _, waited_first hle hover _, hresumed⟩
  · obtain ⟨hsome, hreached⟩ := not_or.mp hover
    have hlooked := looked_first hsome
      (Instant.reached_eq_false_iff.mp (Bool.not_eq_true _ ▸ hreached))
    rw [if_neg hover, ← Nat.one_mul lookInterval, ← Nat.zero_add 1] at hlook
    rw [hgoing, onTree_pending hlook]
    exact .waiting hlooked

/-- Time passes, but no further than to the next look or to the end of the limit. -/
theorem Lookout.onward {s' : Session} (h : Lookout tree stage ps start deadline turns s task)
    (hliving : ∀ p ∈ ps, s'.system.alive p = true → s.system.alive p = true)
    (hnow : s'.now = s.now ∨ ∀ next, task.wake Session.wake = some next → s'.now ≤ next) :
    Lookout tree stage ps start deadline turns s' task := by
  cases h with
  | @waiting k alive h =>
    obtain ⟨next, hwake, hlook, hlimit⟩ :=
      exists_wake tree stage alive (start + (k + 1) * lookInterval) deadline
    refine .waiting { h with
      within := fun d hd => ?_
      next := ?_
      living := fun p hp halive => h.living p hp (hliving p hp halive) }
    · rcases hnow with hnow | hnow
      · exact hnow ▸ h.within d hd
      · exact Nat.le_trans (hnow next hwake) (hlimit d hd)
    · rcases hnow with hnow | hnow
      · rw [hnow]
        exact h.next
      · exact Nat.le_trans (hnow next hwake) hlook
  | finished h => exact .finished h
  | cancelled => exact .cancelled

theorem upheld_over (id : TaskId) :
    Upheld machinery id fun turns _ task => Over tree stage ps start deadline turns task where
  still _ _ h := h
  tick _ _ _ h := h
  cancel h := by simpa using h.goOn [] _
  poll _ h := h.goOn _ _

theorem upheld_lookout (hstatus : ∀ p ∈ ps, p.obstacles.status = none) (tree : Termination)
    (stage : Stage) (start : Instant) (deadline : Option Instant) (id : TaskId) :
    Upheld machinery id fun turns t task =>
      (t.state.system.Sound ∧ ∀ p ∈ ps, t.state.system.Known p.serial) ∧
        Lookout tree stage ps start deadline turns t.state task where
  still {turns t u task} hlater hnow h := by
    obtain ⟨⟨hsound, hknown⟩, hlook⟩ := h
    have hevolves : t.state.system.Evolves u.state.system := evolves_later hlater
    refine ⟨⟨hevolves.sound hsound, fun p hp => hevolves.known (hknown p hp)⟩, ?_⟩
    exact hlook.onward (fun p hp => hevolves.alive hsound (hknown p hp)) (.inl hnow)
  tick {turns t task moment} _ htask hnext h := by
    obtain ⟨⟨hsound, hknown⟩, hlook⟩ := h
    have hevolves := System.evolves_advance t.state.system moment
    have hnow : (machinery.advance t.state moment).now = moment :=
      machinery_punctual.now_advance t.state moment
    refine ⟨⟨hevolves.sound hsound, fun p hp => hevolves.known (hknown p hp)⟩, ?_⟩
    refine hlook.onward (fun p hp => hevolves.alive hsound (hknown p hp))
      (.inr fun next hwake => ?_)
    exact hnow ▸ nextMoment_le_wake (m := machinery) hnext htask hwake
  cancel {turns t errand time} h := by
    obtain ⟨hsystem, hlook⟩ := h
    cases hlook with
    | waiting => exact ⟨hsystem, .cancelled⟩
    | finished hover => exact ⟨hsystem, .finished (by simpa using hover.goOn [] _)⟩
  poll {turns t errand} htask h := by
    obtain ⟨⟨hsound, hknown⟩, hlook⟩ := h
    have hevolves : t.state.system.Evolves (pollTask machinery t id).state.system :=
      evolves_later (.poll id .refl)
    obtain ⟨hstate, -⟩ := pollTask_pending (m := machinery) htask
    refine ⟨⟨hevolves.sound hsound, fun p hp => hevolves.known (hknown p hp)⟩, ?_⟩
    cases hlook with
    | waiting h =>
      have hnow : (pollTask machinery t id).state.now = t.state.now :=
        machinery_punctual.now_pollTask t id
      have hwent := h.goOn hstatus tree stage
      have htime : ∀ errand : Errand Activity, (pollErrand machinery t errand).1.now = t.state.now →
          ∀ a, errand = .act a → (pollErrand machinery t errand).2 =
            .ofProgress t.state.now (poll a t.state).2 := by
        rintro _ hsame a rfl
        exact congrArg (Task.ofProgress · _) hsame
      rw [hstate] at hnow ⊢
      rw [htime _ hnow _ rfl]
      exact hwent
    | finished hover => exact .finished (hover.goOn _ _)

end

theorem Faithful.undisturbed {t u : Timeline Session Activity Result} {ch : ProcessId → Chronicle}
    (h : Faithful t ch) (hcalls : Fleet.Calls False t.state.fleet u.state.fleet) :
    ∃ others, Faithful (settle machinery u) others := by
  have hcarries := hcalls.carries
  have hrest : ∀ id, (settle machinery u).state.fleet.AtRest id (ch id) t.state.now := by
    refine fun id => atRest_settle
      { orderly := h.orderly.frame hcarries.toFrame
        time := hcarries.now
        underway := fun q d hv => ?_ }
    rcases hcarries.view h.orderly.paired id q d hv with ⟨p, c, hp, hs, hg⟩ | ⟨hstarts, -⟩
    · exact (h.settled id p c hp).toUnderway.same hs hg
    · exact hstarts.elim
  have hnow : (settle machinery u).state.now = t.state.now := (hrest 0).time
  have hother : ∀ id, ∃ other : Chronicle,
      (∀ p c, (settle machinery u).state.fleet.view? id = some (p, c) →
        Settled p c other (settle machinery u).state.now) ∧
      ((settle machinery u).state.fleet.view? id = none → other = {}) := by
    intro id
    cases hv : (settle machinery u).state.fleet.view? id with
    | none => exact ⟨{}, (fun p c hp => nomatch hp), fun _ => rfl⟩
    | some pc =>
      refine ⟨(ch id).mark t.state.now pc.1 pc.2, fun p c hp => ?_, fun hp => nomatch hp⟩
      obtain rfl := Option.some.inj hp
      rw [hnow]
      exact (hrest id).settled p c hv
  choose others hsettled hunborn using hother
  exact ⟨others, (hrest 0).orderly, machinery_punctual.timely_settle _, hsettled, hunborn⟩

theorem calls_awaiting (t : Timeline Session Activity Result) (tree : Termination) (stage : Stage)
    (ps : List ProcessRef) (limit : Seconds) :
    Fleet.Calls False t.state.fleet (awaiting t tree stage ps limit).state.fleet := by
  cases stage with
  | asked => exact Termination.calls_lookAtAsked (g := t.state.fleet) .refl tree ps _
  | killed => exact Termination.calls_lookAtKilled (g := t.state.fleet) .refl tree ps _

/-- The turns of a task that has just begun to wait, in a play that goes on with some moves. -/
def turnsOfWait (before begun : Timeline Session Activity Result) (moves : List (Move Command)) :
    List (Session × Session) :=
  (before.state, begun.state) :: (turnsOfSettle machinery before.tasks.size begun ++
    turnsOfPlay machinery before.tasks.size (settle machinery begun) moves)

theorem turnsOfWait_append (before begun : Timeline Session Activity Result)
    (first rest : List (Move Command)) :
    turnsOfWait before begun (first ++ rest) = turnsOfWait before begun first ++
      turnsOfPlay machinery before.tasks.size
        (play machinery (settle machinery begun) first) rest := by
  simp only [turnsOfWait, turnsOfPlay_append, List.cons_append, List.append_assoc]

section

variable {before : Timeline Session Activity Result} {ps : List ProcessRef} {tree : Termination}
  {stage : Stage} {limit : Seconds}

theorem lookout_play (hsound : before.state.system.Sound)
    (hps : ∀ p ∈ ps, p.obstacles.status = none ∧ before.state.system.Known p.serial)
    (tree : Termination) (stage : Stage) (limit : Seconds) (moves : List (Move Command)) :
    let begun := awaiting before tree stage ps limit
    let after := play machinery (settle machinery begun) moves
    ∃ task, after.tasks[before.tasks.size]? = some task ∧
      Lookout tree stage ps before.state.now (limit.deadline before.state.now)
        (turnsOfWait before begun moves) after.state task := by
  intro begun after
  have hstatus : ∀ p ∈ ps, p.obstacles.status = none := fun p hp => (hps p hp).1
  have hevolves := (calls_awaiting before tree stage ps limit).evolves
  have hupheld := upheld_lookout hstatus tree stage before.state.now
    (limit.deadline before.state.now) before.tasks.size
  have hle : ∀ d, limit.deadline before.state.now = some d → before.state.now ≤ d :=
    fun d hd => Seconds.le_deadline hd
  have hlook := lookout_look hstatus tree stage hle
  have hsystem := And.intro (hevolves.sound hsound) fun p hp => hevolves.known (hps p hp).2
  have hsettled := hupheld.settle (t := begun) machinery_punctual
    ⟨_, push_size _ _, hsystem, hlook⟩
  obtain ⟨task, htask, -, hlook⟩ :=
    hupheld.play machinery_punctual (machinery_punctual.timely_settle begun _) moves hsettled
  exact ⟨task, htask, by rwa [List.append_assoc] at hlook⟩

theorem over_play {first rest : List (Move Command)} {earlier task : Task Activity Result}
    (hfirst : (play machinery (settle machinery (awaiting before tree stage ps limit)) first).tasks[
      before.tasks.size]? = some earlier)
    (htask : (play machinery (settle machinery (awaiting before tree stage ps limit))
      (first ++ rest)).tasks[before.tasks.size]? = some task)
    (h : Over tree stage ps before.state.now (limit.deadline before.state.now)
      (turnsOfWait before (awaiting before tree stage ps limit) first) earlier) :
    Over tree stage ps before.state.now (limit.deadline before.state.now)
      (turnsOfWait before (awaiting before tree stage ps limit) (first ++ rest)) task := by
  have htimely := machinery_punctual.timely_play (m := machinery)
    (machinery_punctual.timely_settle (awaiting before tree stage ps limit)) first
    before.tasks.size
  obtain ⟨other, hother, hover⟩ :=
    (upheld_over before.tasks.size).play machinery_punctual htimely rest ⟨earlier, hfirst, h⟩
  rw [← play_append, htask] at hother
  rw [turnsOfWait_append, Option.some.inj hother]
  exact hover

/-- While a wait is under way, each jump of the clock brings it nearer to its end. -/
theorem add_ticks_le_awaiting {chronicles : ProcessId → Chronicle} {moves : List (Move Command)}
    {task : Task Activity Result} (hsound : before.state.system.Sound)
    (hps : ∀ p ∈ ps, p.obstacles.status = none ∧ before.state.system.Known p.serial)
    (hfaithful : Faithful (settle machinery (awaiting before tree stage ps limit)) chronicles)
    (htask : (play machinery (settle machinery (awaiting before tree stage ps limit)) moves).tasks[
      before.tasks.size]? = some task) (hpending : task.isPending = true)
    (hover : ¬ Over tree stage ps before.state.now (limit.deadline before.state.now)
      (turnsOfWait before (awaiting before tree stage ps limit) moves) task) :
    before.state.now + moves.count .tick ≤
      (play machinery (settle machinery (awaiting before tree stage ps limit))
        moves).state.now := by
  have hstart : (settle machinery (awaiting before tree stage ps limit)).state.now =
      before.state.now :=
    (machinery_punctual.now_settle _).trans
      (calls_awaiting before tree stage ps limit).carries.now
  rw [← hstart]
  refine add_ticks_le hfaithful before.tasks.size fun first rest hsplit => ?_
  subst hsplit
  obtain ⟨earlier, hearlier, hlook⟩ := lookout_play hsound hps tree stage limit first
  cases hlook with
  | @waiting k alive h =>
    obtain ⟨next, hwake, -⟩ := exists_wake tree stage alive
      (before.state.now + (k + 1) * lookInterval) (limit.deadline before.state.now)
    exact ⟨_, next, hearlier, hwake⟩
  | finished hbefore => exact absurd (over_play hearlier htask hbefore) hover
  | cancelled =>
    have hended := ended_play (m := machinery) hearlier rest
    rw [← play_append, htask] at hended
    cases Option.some.inj hended
    cases hpending

end

theorem not_cancelled_awaiting {before : Timeline Session Activity Result} {tree : Termination}
    {stage : Stage} {ps : List ProcessRef} {limit : Seconds} :
    ¬ Cancelled (awaiting before tree stage ps limit) before.tasks.size := by
  rintro ⟨time, h⟩
  have htask : Task.ofProgress before.state.now
      (onTree (tree.look stage ps (limit.deadline before.state.now)) before.state).2 =
      .ended time .cancelled := Option.some.inj ((push_size _ _).symm.trans h)
  unfold Task.ofProgress at htask
  split at htask <;> cases htask

/-- A wait is over no later than its limit: at the first look that finds nobody, or else when the
limit runs out, with those that the last look found alive. Until it is over, every look finds
somebody, the end of the limit is still to come, and each jump of the clock brings it nearer; unless
a step cancels the wait. A limit that is not positive runs out at the first look. -/
theorem wait_observes (s : Session) (w : System) (others : List Birth)
    (history : List (Move Command)) (tree : Termination) (stage : Stage) (ps : List ProcessRef)
    (limit : Seconds) (moves : List (Move Command)) :
    let before := play machinery { state := s.afresh w others } history
    let begun := awaiting before tree stage ps limit
    let after := play machinery (settle machinery begun) moves
    let turns := turnsOfWait before begun moves
    let start := before.state.now
    let deadline := limit.deadline start
    (∀ p ∈ ps, p.obstacles.status = none ∧ before.state.system.Known p.serial) →
    ((limit.Spent → deadline = some start) ∧
      (limit.Positive → ∀ d, deadline = some d → start < d)) ∧
    ∃ task, after.tasks[before.tasks.size]? = some task ∧
      ((∃ time left, Waited turns ps start deadline time left ∧
          Resumed tree stage left time turns task ∧ ∀ d, deadline = some d → time ≤ d) ∨
        (task.isPending = true ∧
          (∀ k, start + k * lookInterval ≤ after.state.now →
            ∃ alive, Sighted turns ps (start + k * lookInterval) alive ∧ alive ≠ []) ∧
          (∀ d, deadline = some d → after.state.now < d) ∧
          start + moves.count .tick ≤ after.state.now) ∨
        ((∃ time, task = .ended time .cancelled) ∧
          ∃ other, .begin other ∈ moves ∧ other.cancels = true)) := by
  intro before begun after turns start deadline hps
  refine ⟨⟨fun h => h.deadline start, fun h d hd => h.lt_deadline hd⟩, ?_⟩
  have hsound : before.state.system.Sound := sound_later (Later.refl.play history)
  obtain ⟨task, htask, hlook⟩ := lookout_play hsound hps tree stage limit moves
  refine ⟨task, htask, ?_⟩
  by_cases hover : Over tree stage ps start deadline turns task
  · obtain ⟨time, left, hwaited, hresumed⟩ := hover
    exact .inl ⟨time, left, hwaited, hresumed, fun d hd => hwaited.le_deadline hd⟩
  · obtain ⟨chronicles, hfaithful⟩ :=
      ((faithful_afresh s w others).play history).undisturbed
        (calls_awaiting before tree stage ps limit)
    cases hlook with
    | finished h => exact absurd h hover
    | cancelled =>
      refine .inr (.inr ⟨⟨_, rfl⟩, (cancelled_play ⟨_, htask⟩).resolve_left fun hbegun => ?_⟩)
      exact not_cancelled_awaiting (cancelled_settle hbegun)
    -- whatever is next, a look or the end of the limit, has not come yet
    | @waiting k alive h =>
      obtain ⟨next, hwake, hlook, hlimit⟩ :=
        exists_wake tree stage alive (start + (k + 1) * lookInterval) deadline
      have hnext : after.state.now < next :=
        machinery_punctual.timely_play (machinery_punctual.timely_settle begun) moves _ _ htask next
          hwake
      exact .inr (.inl ⟨rfl, h.somebody_until (Nat.lt_of_lt_of_le hnext hlook),
        fun d hd => Nat.lt_of_lt_of_le hnext (hlimit d hd),
        add_ticks_le_awaiting hsound hps hfaithful htask rfl hover⟩)

/-- One of two processes dies after the last look before the limit runs out, and counts as left. -/
theorem wait_observes_late_death :
    let others : List Birth :=
      [{ spec := { pid := 40, ppid := 1, pgid := 40 }, lifetime := some (Instant.ofMillis 30) },
       { spec := { pid := 41, ppid := 40, pgid := 40 }, lifetime := some (Instant.ofMillis 110) }]
    let before := play machinery { state := ({} : Session).afresh {} others } []
    let tree : Termination :=
      { pid := 40, termLimit := .whole 1, killLimit := .ofDecimal 12 (-2) }
    let ps := before.state.system.table.map (·.ref)
    let begun := awaiting before tree .killed ps tree.killLimit
    let moves := List.replicate 5 Move.tick
    let after := play machinery (settle machinery begun) moves
    (∀ p ∈ ps, p.obstacles.status = none ∧ before.state.system.Known p.serial) ∧
      (∀ p ∈ ps, after.state.system.alive p = false) ∧
      after.tasks[before.tasks.size]?.bind failure? =
        some (Instant.ofMillis 120, Termination.leftover 40 1) ∧
      ∃ left, Waited (turnsOfWait before begun moves) ps before.state.now
        (tree.killLimit.deadline before.state.now) (Instant.ofMillis 120) left ∧ left ≠ [] := by
  intro others before tree ps begun moves after
  have hps : ∀ p ∈ ps, p.obstacles.status = none ∧ before.state.system.Known p.serial := by
    have hsound : before.state.system.Sound := sound_later .refl
    have hstatus : ∀ p ∈ ps, p.obstacles.status = none := by decide +kernel
    intro p hp
    obtain ⟨x, hx, rfl⟩ := List.mem_map.mp hp
    exact ⟨hstatus _ hp, hsound.known hx⟩
  have hdead : ∀ p ∈ ps, after.state.system.alive p = false := by decide +kernel
  have hfailed : after.tasks[before.tasks.size]?.bind failure? =
      some (Instant.ofMillis 120, Termination.leftover 40 1) := by decide +kernel
  refine ⟨hps, hdead, hfailed, ?_⟩
  obtain ⟨-, task, htask, hends⟩ :=
    wait_observes {} {} others [] tree .killed ps tree.killLimit moves hps
  obtain rfl :
      task = .ended (Instant.ofMillis 120) (.result (.error (Termination.leftover 40 1))) := by
    rw [htask] at hfailed
    exact failure?_eq_some_iff.mp hfailed
  rcases hends with ⟨time, left, hwaited, ⟨_, turn, _, _, _, _, _, hdone⟩, -⟩ | ⟨hpending, -⟩ |
    ⟨⟨time, hcancelled⟩, -⟩
  · by_cases hleft : left = []
    · have hresult := hdone (.ok .nothing) (by rw [hleft]; rfl)
      cases hresult
    · have hresult := hdone (.error (Termination.leftover 40 left.length)) (by
        simp only [onTree, Termination.resume, hleft, if_false]
        rfl)
      obtain ⟨rfl, -⟩ := Task.ended.inj hresult
      exact ⟨left, hwaited, hleft⟩
  · cases hpending
  · cases hcancelled

end Session

end Overseer
