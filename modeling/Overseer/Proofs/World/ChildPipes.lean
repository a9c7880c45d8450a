import Overseer.Proofs.Timeline.Moves
import Overseer.Proofs.World.ProcessCounts

/-!
# What comes of programs

A program that goes on adds chunks to its pipe as long as that is open, and ends once
(`Child.Goes`). Signals add nothing (`Child.Stays`), and no program touches the pipe of another one.
What is still to happen is to happen later (`System.Upcoming`).
-/

namespace Overseer.World

namespace Child

def unread (c : Child) : List (List UInt8) := (c.pipe.map (·.unread)).getD []

def isOpen (c : Child) : Bool := c.pipe.any (·.state == .open)

def isBroken (c : Child) : Bool := c.pipe.any (·.state.isFailed)

structure Goes (news : List (List UInt8)) (c d : Child) : Prop where
  unread : d.unread = c.unread ++ news
  shut : c.isOpen = false → d.isOpen = false ∧ d.isBroken = c.isBroken ∧ news = []
  code : ∀ code, c.exitCode = some code → d.exitCode = some code

def Later (c d : Child) : Prop := ∃ news, c.Goes news d

/-- A child after callers have done something: nothing has come, and nothing has failed. -/
structure Stays (c d : Child) : Prop extends Goes [] c d where
  broken : d.isBroken = c.isBroken

variable {c d e : Child} {news more : List (List UInt8)}

theorem isOpen_of_isBroken (h : c.isBroken = true) : c.isOpen = false := by
  unfold isBroken at h
  unfold isOpen
  cases hp : c.pipe with
  | none => rfl
  | some pipe =>
    rw [hp, Option.any_some] at h
    rw [Option.any_some]
    cases hs : pipe.state with
    | «open» =>
      rw [hs] at h
      cases h
    | ended => rfl
    | failed error => rfl

theorem Goes.refl (c : Child) : Goes [] c c :=
  ⟨(List.append_nil _).symm, fun h => ⟨h, rfl, rfl⟩, fun _ h => h⟩

theorem Goes.trans (h : Goes news c d) (k : Goes more d e) : Goes (news ++ more) c e where
  unread := by rw [k.unread, h.unread, List.append_assoc]
  shut hc := by
    obtain ⟨hd, hcd, rfl⟩ := h.shut hc
    obtain ⟨he, hde, rfl⟩ := k.shut hd
    exact ⟨he, hde.trans hcd, rfl⟩
  code code hc := k.code code (h.code code hc)

theorem Goes.later (h : Goes news c d) : Later c d := ⟨news, h⟩

theorem Goes.ended (h : Goes news c d) (hc : c.exitCode.isSome = true) :
    d.exitCode.isSome = true := by
  obtain ⟨code, hc⟩ := Option.isSome_iff_exists.mp hc
  rw [h.code code hc]
  rfl

theorem Later.refl (c : Child) : Later c c := (Goes.refl c).later

theorem Later.trans (h : Later c d) (k : Later d e) : Later c e := by
  obtain ⟨news, h⟩ := h
  obtain ⟨more, k⟩ := k
  exact (h.trans k).later

theorem Stays.refl (c : Child) : Stays c c := ⟨.refl c, rfl⟩

theorem Stays.trans (h : Stays c d) (k : Stays d e) : Stays c e :=
  ⟨h.toGoes.trans k.toGoes, k.broken.trans h.broken⟩

theorem Stays.later (h : Stays c d) : Later c d := h.toGoes.later

theorem goes_finish (c : Child) (state : PipeState) (hs : state ≠ .open) :
    Goes [] c { c with pipe := c.pipe.map (·.finish state) } := by
  cases hp : c.pipe with
  | none =>
    refine ⟨?_, fun _ => ⟨rfl, ?_, rfl⟩, fun _ h => h⟩
    · simp [Child.unread, hp]
    · simp [isBroken, hp]
  | some pipe =>
    have hu : (pipe.finish state).unread = pipe.unread := by
      unfold Pipe.finish
      split <;> rfl
    have ho : ((pipe.finish state).state == .open) = false := by
      unfold Pipe.finish
      split
      · simpa using hs
      next hn => simpa using hn
    refine ⟨?_, fun hc => ⟨?_, ?_, rfl⟩, fun _ h => h⟩
    · simp [Child.unread, hp, hu]
    · simp [isOpen, ho]
    · have hshut : pipe.state ≠ .open := by simpa [isOpen, hp] using hc
      have hsame : pipe.finish state = pipe := by
        unfold Pipe.finish
        split
        · exact absurd ‹_› hshut
        · rfl
      simp [isBroken, hp, hsame]

theorem stays_ended (c : Child) : Stays c { c with pipe := c.pipe.map (·.finish .ended) } where
  toGoes := goes_finish c .ended (by simp)
  broken := by
    cases hp : c.pipe with
    | none => simp [isBroken, hp]
    | some pipe =>
      have hsame : (pipe.finish .ended).state.isFailed = pipe.state.isFailed := by
        unfold Pipe.finish
        split
        next ho => simp [ho, PipeState.isFailed]
        · rfl
      simp [isBroken, hp, hsame]

theorem later_write (c : Child) (bytes : List UInt8) :
    Later c { c with pipe := c.pipe.map (·.write bytes) } := by
  cases hp : c.pipe with
  | none =>
    refine ⟨[], ?_, fun _ => ⟨rfl, ?_, rfl⟩, fun _ h => h⟩
    · simp [Child.unread, hp]
    · simp [isBroken, hp]
  | some pipe =>
    by_cases ho : pipe.state = .open
    · refine ⟨[bytes], ?_, ?_, fun _ h => h⟩
      · simp [Child.unread, hp, Pipe.write, ho]
      · simp [isOpen, hp, ho]
    · have hw : pipe.write bytes = pipe := by
        unfold Pipe.write
        split
        · exact absurd ‹_› ho
        · rfl
      have hc : { c with pipe := some (pipe.write bytes) } = c := by rw [hw, ← hp]
      rw [Option.map_some, hc]
      exact Later.refl c

theorem stays_endWith (h : c.exitCode = none) (code : Int) : Stays c (c.endWith code) := by
  have hf := stays_ended c
  unfold endWith
  cases c.holdsPipe with
  | true => exact ⟨⟨by simp [Child.unread], fun hc => ⟨hc, rfl, rfl⟩, by simp [h]⟩, rfl⟩
  | false => exact ⟨⟨hf.unread, hf.shut, by simp [h]⟩, hf.broken⟩

end Child

namespace System

def Listed (w : System) : Prop :=
  w.endings.toList.Nodup ∧ ∀ c, c ∈ w.endings ↔ (w.exitCode? c).isSome = true

def Upcoming (w : System) : Prop :=
  (w.agenda.Pairwise fun a b => a.1 ≤ b.1) ∧ ∀ entry ∈ w.agenda, w.now < entry.1

structure Onward (R : Child → Child → Prop) (a b : System) : Prop where
  size : b.children.size = a.children.size
  each : ∀ (i : Nat) c, a.children[i]? = some c → ∃ d, b.children[i]? = some d ∧ R c d
  listed : a.Listed → b.Listed

structure Proceeds (R : Child → Child → Prop) (a b : System) : Prop extends Onward R a b where
  now : b.now = a.now
  upcoming : a.Upcoming → b.Upcoming

section

variable {R S : Child → Child → Prop} {a b c w : System}

theorem Onward.trans (hR : ∀ {x y z}, R x y → R y z → R x z) (h : Onward R a b)
    (k : Onward R b c) : Onward R a c where
  size := k.size.trans h.size
  each i x hx := by
    obtain ⟨y, hy, hxy⟩ := h.each i x hx
    obtain ⟨z, hz, hyz⟩ := k.each i y hy
    exact ⟨z, hz, hR hxy hyz⟩
  listed ha := k.listed (h.listed ha)

theorem Onward.mono (h : Onward R a b) (hRS : ∀ {x y}, R x y → S x y) : Onward S a b where
  size := h.size
  each i x hx := by
    obtain ⟨y, hy, hxy⟩ := h.each i x hx
    exact ⟨y, hy, hRS hxy⟩
  listed := h.listed

/-- What counts is the children and the list of those that have ended. -/
theorem Onward.of_eq (hR : ∀ x, R x x) (hc : b.children = a.children)
    (he : b.endings = a.endings) : Onward R a b where
  size := by rw [hc]
  each i x hx := ⟨x, by rw [hc, hx], hR x⟩
  listed ha := by
    unfold Listed exitCode?
    rw [hc, he]
    exact ha

theorem Proceeds.trans (hR : ∀ {x y z}, R x y → R y z → R x z) (h : Proceeds R a b)
    (k : Proceeds R b c) : Proceeds R a c where
  toOnward := h.toOnward.trans hR k.toOnward
  now := k.now.trans h.now
  upcoming ha := k.upcoming (h.upcoming ha)

theorem Proceeds.of_eq (hR : ∀ x, R x x) (hc : b.children = a.children)
    (he : b.endings = a.endings) (hn : b.now = a.now) (hg : b.agenda = a.agenda) :
    Proceeds R a b where
  toOnward := .of_eq hR hc he
  now := hn
  upcoming ha := by
    unfold Upcoming
    rw [hn, hg]
    exact ha

theorem Proceeds.refl (hR : ∀ x, R x x) (w : System) : Proceeds R w w := .of_eq hR rfl rfl rfl rfl

end

section

variable {R : Child → Child → Prop}

theorem onward_endChild (w : System) (c : ChildId) (code : Child → Int) :
    Onward Child.Stays w (w.endChild c code) := by
  unfold endChild
  cases hc : w.children[c]? with
  | none => exact .of_eq Child.Stays.refl rfl rfl
  | some child =>
    dsimp only
    by_cases hx : child.exitCode.isSome = true
    · rw [if_pos hx]
      exact .of_eq Child.Stays.refl rfl rfl
    · rw [if_neg hx]
      have hlt : c < w.children.size := (Array.getElem?_eq_some_iff.mp hc).1
      have hnone : child.exitCode = none := by simpa using hx
      refine ⟨by simp, fun i x hi => ?_, fun ⟨hnodup, hmem⟩ => ⟨?_, fun i => ?_⟩⟩
      · by_cases he : c = i
        · subst he
          obtain rfl := Option.some.inj (hc.symm.trans hi)
          exact ⟨_, Array.getElem?_setIfInBounds_self_of_lt hlt, Child.stays_endWith hnone _⟩
        · exact ⟨x, by rw [Array.getElem?_setIfInBounds_ne he, hi], Child.Stays.refl x⟩
      · have hnot : c ∉ w.endings := fun hm => by
          have hs := (hmem c).mp hm
          simp [exitCode?, hc, hnone] at hs
        rw [Array.toList_push, List.nodup_append]
        refine ⟨hnodup, by simp, fun i hi j hj hij => ?_⟩
        obtain rfl := List.mem_singleton.mp hj
        exact hnot (Array.mem_toList_iff.mp (hij ▸ hi))
      · rw [Array.mem_push, hmem i]
        by_cases he : c = i
        · subst he
          simp [exitCode?, Array.getElem?_setIfInBounds_self_of_lt hlt, Child.endWith]
        · simp [exitCode?, Array.getElem?_setIfInBounds_ne he, Ne.symm he]

theorem onward_onPipe (w : System) (c : ChildId) {change : Pipe → Pipe} (hR : ∀ x, R x x)
    (h : ∀ x : Child, R x { x with pipe := x.pipe.map change }) :
    Onward R w (w.onPipe c change) := by
  refine ⟨by simp [onPipe], fun i x hi => ?_, fun ⟨hnodup, hmem⟩ => ⟨hnodup, fun i => ?_⟩⟩
  · by_cases he : c = i
    · exact ⟨_, by simp [onPipe, Array.getElem?_modify, he, hi], h x⟩
    · exact ⟨x, by simp [onPipe, Array.getElem?_modify, he, hi], hR x⟩
  · refine (hmem i).trans ?_
    by_cases he : c = i
    · cases hc : w.children[i]? <;> simp [exitCode?, onPipe, Array.getElem?_modify, he, hc]
    · simp [exitCode?, onPipe, Array.getElem?_modify, he]

theorem onward_die (w : System) (serial : Serial) (child : Option ChildId)
    (signal : Option Signal) : Onward Child.Stays w (w.die serial child signal) := by
  cases child with
  | none => exact .of_eq Child.Stays.refl rfl rfl
  | some c =>
    cases signal with
    | none => exact .of_eq Child.Stays.refl rfl rfl
    | some signal =>
      have he := onward_endChild { w with table := w.table.bury serial } c (·.codeAfter signal)
      exact ⟨he.size, he.each, he.listed⟩

theorem onward_apply (w : System) (h : Happening) : Onward Child.Later w (w.apply h) := by
  cases h with
  | birth p => exact .of_eq Child.Later.refl rfl rfl
  | death serial child signal => exact (onward_die w serial child signal).mono Child.Stays.later
  | program c event =>
    cases event with
    | output bytes => exact onward_onPipe w c Child.Later.refl fun x => x.later_write bytes
    | endOfPipe =>
      exact onward_onPipe w c Child.Later.refl fun x => x.stays_ended.later
    | readError text =>
      exact onward_onPipe w c Child.Later.refl fun x =>
        (x.goes_finish (.failed { number := 5, text }) nofun).later
    | exit code =>
      have hsame : Onward Child.Later w w := .of_eq Child.Later.refl rfl rfl
      simp only [apply, runEvent, exitShell]
      split
      · exact hsame
      next child hc =>
        split
        · exact hsame
        · have he := onward_endChild { w with table := w.table.remove child.serial } c fun _ => code
          exact ⟨he.size, (he.mono Child.Stays.later).each, he.listed⟩

@[simp] theorem now_apply (w : System) (h : Happening) : (w.apply h).now = w.now := by
  cases h with
  | birth x => rfl
  | death serial child signal =>
    cases child <;> cases signal <;> simp [apply, die]
  | program c event =>
    cases event with
    | exit code =>
      simp only [apply, runEvent, exitShell]
      split
      · rfl
      · split
        · rfl
        · exact now_endChild _ _ _
    | _ => rfl

theorem children_runEvent_of_ne (w : System) {c i : ChildId} (hne : c ≠ i) (event : ProgramEvent) :
    (w.runEvent c event).children[i]? = w.children[i]? := by
  cases event with
  | exit code =>
    simp only [runEvent, exitShell]
    split
    · rfl
    · split
      · rfl
      · unfold endChild
        dsimp only
        split
        · rfl
        · split
          · rfl
          · exact Array.getElem?_setIfInBounds_ne hne
  | _ => simp [runEvent, onPipe, Array.getElem?_modify, hne]

theorem mem_schedule {agenda : List (Instant × Happening)} {due : Instant} {x : Happening}
    {entry : Instant × Happening} :
    entry ∈ schedule agenda due x ↔ entry = (due, x) ∨ entry ∈ agenda := by
  induction agenda with
  | nil => simp [schedule]
  | cons first agenda ih =>
    unfold schedule
    split
    · simp
    · rw [List.mem_cons, ih, List.mem_cons]
      exact or_left_comm

theorem pairwise_schedule {agenda : List (Instant × Happening)}
    (h : agenda.Pairwise fun a b => a.1 ≤ b.1) (due : Instant) (x : Happening) :
    (schedule agenda due x).Pairwise fun a b => a.1 ≤ b.1 := by
  induction agenda with
  | nil => exact List.pairwise_singleton _ _
  | cons first agenda ih =>
    obtain ⟨hfirst, hrest⟩ := List.pairwise_cons.mp h
    unfold schedule
    by_cases hlt : due < first.1
    · rw [if_pos hlt]
      refine List.pairwise_cons.mpr ⟨fun other ho => ?_, h⟩
      rcases List.mem_cons.mp ho with rfl | ho
      · exact Nat.le_of_lt hlt
      · exact Nat.le_trans (Nat.le_of_lt hlt) (hfirst other ho)
    · rw [if_neg hlt]
      refine List.pairwise_cons.mpr ⟨fun other ho => ?_, ih hrest⟩
      rcases mem_schedule.mp ho with rfl | ho
      · exact Nat.le_of_not_lt hlt
      · exact hfirst other ho

theorem Upcoming.plan {w : System} (h : w.Upcoming) {due : Instant} (hdue : w.now < due)
    (x : Happening) : (w.plan due x).Upcoming := by
  refine ⟨pairwise_schedule h.1 due x, fun entry he => ?_⟩
  rcases mem_schedule.mp he with rfl | he
  · exact hdue
  · exact h.2 entry he

theorem proceeds_settleOrPlan (hR : ∀ x, R x x) (w : System) (delay : Nat) (h : Happening)
    (ha : Onward R w (w.apply h)) : Proceeds R w (w.settleOrPlan delay h) := by
  unfold settleOrPlan
  by_cases hd : delay = 0
  · rw [if_pos hd]
    refine ⟨ha, now_apply w h, fun hu => ?_⟩
    unfold Upcoming
    rw [agenda_apply, now_apply]
    exact hu
  · rw [if_neg hd]
    exact ⟨.of_eq hR rfl rfl, rfl, fun hu =>
      hu.plan (Nat.lt_add_of_pos_right (Nat.pos_of_ne_zero hd)) h⟩

theorem onward_foldl_apply (due : List (Instant × Happening)) (w : System) :
    Onward Child.Later w
      (due.foldl (fun w entry => { w with now := entry.1 }.apply entry.2) w) := by
  induction due generalizing w with
  | nil => exact .of_eq Child.Later.refl rfl rfl
  | cons entry due ih =>
    have hone := onward_apply { w with now := entry.1 } entry.2
    have hfirst : Onward Child.Later w ({ w with now := entry.1 }.apply entry.2) :=
      ⟨hone.size, hone.each, hone.listed⟩
    exact hfirst.trans Child.Later.trans (ih _)

theorem onward_advance (w : System) (t : Instant) : Onward Child.Later w (w.advance t) := by
  have h := onward_foldl_apply (w.agenda.takeWhile (isDue t))
    { w with agenda := w.agenda.dropWhile (isDue t) }
  exact ⟨h.size, h.each, h.listed⟩

theorem Upcoming.advance {w : System} (h : w.Upcoming) (t : Instant) : (w.advance t).Upcoming := by
  have hagenda : (w.advance t).agenda = w.agenda.dropWhile (isDue t) :=
    (foldl_apply (trait_numbered 0) _ _).1
  refine ⟨?_, fun entry he => ?_⟩
  · rw [hagenda]
    exact h.1.sublist (List.dropWhile_sublist _)
  · rw [hagenda] at he
    exact Instant.lt_of_mem_dropWhile h.1 he

theorem proceeds_deliver (w : System) (serial : Serial) (signal : Signal) :
    Proceeds Child.Stays w (w.deliver serial signal) := by
  have hmark : ∀ table, Proceeds Child.Stays w { w with table } := fun _ =>
    .of_eq Child.Stays.refl rfl rfl rfl rfl
  have hdie : ∀ table delay child, Proceeds Child.Stays w
      ({ w with table }.settleOrPlan delay (.death serial child (some signal))) := by
    intro table delay child
    refine (hmark table).trans (fun h k => h.trans k) ?_
    exact proceeds_settleOrPlan Child.Stays.refl _ delay _ (onward_die _ serial child (some signal))
  unfold deliver
  cases w.table.deref? serial with
  | none => exact .refl Child.Stays.refl w
  | some x =>
    cases signal with
    | term =>
      dsimp only
      split
      · exact .refl Child.Stays.refl w
      · cases x.onTerm with
        | none => exact hmark _
        | some delay => exact hdie _ delay x.child
    | kill =>
      dsimp only
      split
      · exact .refl Child.Stays.refl w
      · cases x.onKill with
        | none => exact hmark _
        | some delay => exact hdie _ delay x.child

theorem proceeds_foldl {γ : Type} {f : System → γ → System}
    (h : ∀ w x, Proceeds Child.Stays w (f w x)) (xs : List γ) (w : System) :
    Proceeds Child.Stays w (xs.foldl f w) := by
  induction xs generalizing w with
  | nil => exact .refl Child.Stays.refl w
  | cons x xs ih => exact (h w x).trans (fun h k => h.trans k) (ih (f w x))

theorem proceeds_record (w : System) (attempt : Attempt) :
    Proceeds Child.Stays w (w.record attempt) :=
  .of_eq Child.Stays.refl rfl rfl rfl rfl

theorem proceeds_signalProcess (w : System) (p : ProcessRef) (signal : Signal) :
    Proceeds Child.Stays w (w.signalProcess p signal).1 := by
  have hrecord := proceeds_record w (.single p.pid signal)
  unfold signalProcess
  dsimp only
  split
  · exact hrecord
  · split
    · exact hrecord.trans (fun h k => h.trans k) (proceeds_deliver _ _ _)
    · exact hrecord

theorem proceeds_signalGroup (w : System) (pgid : Int) (signal : Signal) :
    Proceeds Child.Stays w (w.signalGroup pgid signal).1 := by
  have hrecord := proceeds_record w (.group pgid signal)
  unfold signalGroup
  dsimp only
  split
  · exact hrecord
  · exact hrecord
  · refine hrecord.trans (fun h k => h.trans k) ?_
    exact proceeds_foldl (fun w (p : Process) => proceeds_deliver w p.serial signal) _ _

theorem proceeds_bear (w : System) (b : Birth) : Proceeds Child.Stays w (w.bear b) := by
  have hborn : Proceeds Child.Stays w ({ w with serials := w.serials + 1 }.settleOrPlan b.delay
      (.birth { b.spec with serial := w.serials })) := by
    have hnext : Proceeds Child.Stays w { w with serials := w.serials + 1 } :=
      .of_eq Child.Stays.refl rfl rfl rfl rfl
    refine hnext.trans (fun h k => h.trans k) (proceeds_settleOrPlan Child.Stays.refl _ _ _ ?_)
    exact .of_eq Child.Stays.refl rfl rfl
  unfold bear
  cases b.lifetime with
  | none => exact hborn
  | some lifetime =>
    refine hborn.trans (fun h k => h.trans k) (proceeds_settleOrPlan Child.Stays.refl _ _ _ ?_)
    exact onward_die _ _ none none

theorem proceeds_emptyPipe (w : System) (c : ChildId) :
    Proceeds (fun _ _ => True) w (w.emptyPipe c) :=
  ⟨onward_onPipe w c (fun _ => trivial) fun _ => trivial, rfl, id⟩

structure Adds (a b : System) : Prop where
  now : b.now = a.now
  size : b.children.size = a.children.size + 1
  others : ∀ (i : Nat) c, a.children[i]? = some c → ∃ d, b.children[i]? = some d ∧ c.Stays d
  listed : a.Listed → b.Listed
  upcoming : a.Upcoming → b.Upcoming

theorem adds_withShell (w : System) (p : Program) : Adds w (w.withShell p) where
  now := rfl
  size := by simp [withShell]
  others i c hi := by
    have hlt : i < w.children.size := (Array.getElem?_eq_some_iff.mp hi).1
    exact ⟨c, by simp [withShell, Array.getElem?_push, Nat.ne_of_lt hlt, hi], Child.Stays.refl c⟩
  listed := by
    rintro ⟨hnodup, hmem⟩
    refine ⟨hnodup, fun i => (hmem i).trans ?_⟩
    by_cases hi : i = w.children.size
    · simp [exitCode?, withShell, hi]
    · simp [exitCode?, withShell, Array.getElem?_push, hi]
  upcoming := id

section

variable {a b c : System}

theorem Adds.proceeds (h : Adds a b) (hp : Proceeds Child.Stays b c) : Adds a c where
  now := hp.now.trans h.now
  size := hp.size.trans h.size
  others i x hx := by
    obtain ⟨y, hy, hxy⟩ := h.others i x hx
    obtain ⟨z, hz, hyz⟩ := hp.each i y hy
    exact ⟨z, hz, hxy.trans hyz⟩
  listed ha := hp.listed (h.listed ha)
  upcoming ha := hp.upcoming (h.upcoming ha)

theorem Adds.bear (h : Adds a b) (family : List Birth) : Adds a (family.foldl System.bear b) :=
  h.proceeds (proceeds_foldl proceeds_bear family b)

theorem Adds.event (h : Adds a b) (delay : Nat) (event : ProgramEvent) :
    Adds a (b.settleOrPlan delay (.program a.children.size event)) := by
  have hp := proceeds_settleOrPlan Child.Later.refl b delay (.program a.children.size event)
    (onward_apply b _)
  refine ⟨hp.now.trans h.now, hp.size.trans h.size, fun i x hx => ?_,
    fun ha => hp.listed (h.listed ha), fun ha => hp.upcoming (h.upcoming ha)⟩
  obtain ⟨y, hy, hxy⟩ := h.others i x hx
  have hne : a.children.size ≠ i := Nat.ne_of_gt (Array.getElem?_eq_some_iff.mp hx).1
  refine ⟨y, ?_, hxy⟩
  unfold settleOrPlan
  split
  · exact (children_runEvent_of_ne b hne event).trans hy
  · exact hy

theorem Adds.events (h : Adds a b) (events : List (Nat × ProgramEvent)) :
    Adds a (events.foldl
      (fun u entry => u.settleOrPlan entry.1 (.program a.children.size entry.2)) b) := by
  induction events generalizing b with
  | nil => exact h
  | cons entry events ih => exact ih (h.event entry.1 entry.2)

end

theorem adds_startProgram (w : System) (p : Program) : Adds w (w.startProgram p).1 := by
  rw [startProgram_eq]
  exact ((adds_withShell w p).bear p.family).events p.events

theorem spawn_cases (w : System) (launch : Launch) :
    (∃ reason, (w.spawn launch).2 = .error reason ∧
      Proceeds Child.Stays w (w.spawn launch).1) ∨
    ((w.spawn launch).2 = .ok w.children.size ∧ Adds w (w.spawn launch).1) := by
  unfold spawn
  rcases w.programs with _ | ⟨next, rest⟩
  · exact .inl ⟨_, rfl, .of_eq Child.Stays.refl rfl rfl rfl rfl⟩
  · cases next with
    | refused reason => exact .inl ⟨_, rfl, .of_eq Child.Stays.refl rfl rfl rfl rfl⟩
    | program p =>
      have h := adds_startProgram
        { w with programs := rest, spawned := w.spawned.push ⟨launch, some p.shell.pid⟩ } p
      exact .inr ⟨rfl, h.now, h.size, h.others, h.listed, h.upcoming⟩

end

end System

end Overseer.World
