import Overseer.Proofs.Tree.SignalAttempts

/-!
# Who there is and who is to come

What can be said of a process for good, whatever becomes of it, holds of all processes at every
later time if it holds of those that there are and of those that are still to be born
(`System.Peopled`, `System.Retains`). One such thing is which process is the shell of which child
(`System.Linked`).
-/

namespace Overseer.World

def Happening.Meets (Φ : Process → Prop) (Ψ : Serial → Option ChildId → Prop) : Happening → Prop
  | .birth x => Φ x
  | .death serial child _ => Ψ serial child
  | .program _ _ => True

/-- Something that can be said of a process for good, and what follows for its death. -/
structure Lasting (Φ : Process → Prop) (Ψ : Serial → Option ChildId → Prop) : Prop where
  bury : ∀ x, Φ x → Φ { x with zombie := true }
  term : ∀ x, Φ x → Φ { x with termSeen := true }
  kill : ∀ x, Φ x → Φ { x with killSeen := true }
  death : ∀ x, Φ x → Ψ x.serial x.child

namespace System

def shell? (w : System) (c : ChildId) : Option Serial := w.children[c]?.map (·.serial)

/-- What holds of all processes that there are, and of whatever is still to happen. -/
structure Peopled (Φ : Process → Prop) (Ψ : Serial → Option ChildId → Prop)
    (w : System) : Prop where
  present : ∀ x ∈ w.table, Φ x
  coming : ∀ entry ∈ w.agenda, entry.2.Meets Φ Ψ

/-- A system in which nobody has got another shell, and of whose processes the same holds. -/
structure Retains (Φ : Process → Prop) (Ψ : Serial → Option ChildId → Prop)
    (a b : System) : Prop where
  shells : b.shell? = a.shell?
  present : (∀ x ∈ a.table, Φ x) → ∀ x ∈ b.table, Φ x
  coming : (∀ entry ∈ a.agenda, entry.2.Meets Φ Ψ) → ∀ entry ∈ b.agenda, entry.2.Meets Φ Ψ

variable {Φ : Process → Prop} {Ψ : Serial → Option ChildId → Prop} {a b c w : System}

theorem Retains.refl (w : System) : Retains Φ Ψ w w := ⟨rfl, id, id⟩

theorem Retains.trans (h : Retains Φ Ψ a b) (k : Retains Φ Ψ b c) : Retains Φ Ψ a c :=
  ⟨k.shells.trans h.shells, k.present ∘ h.present, k.coming ∘ h.coming⟩

theorem Retains.peopled (h : Retains Φ Ψ a b) (ha : a.Peopled Φ Ψ) : b.Peopled Φ Ψ :=
  ⟨h.present ha.present, h.coming ha.coming⟩

theorem Retains.of_table (hchildren : b.children = a.children) (hagenda : b.agenda = a.agenda)
    (htable : (∀ x ∈ a.table, Φ x) → ∀ x ∈ b.table, Φ x) : Retains Φ Ψ a b := by
  refine ⟨?_, htable, ?_⟩
  · unfold shell?
    rw [hchildren]
  · rw [hagenda]
    exact id

theorem Retains.of_eq (hchildren : b.children = a.children) (htable : b.table = a.table)
    (hagenda : b.agenda = a.agenda) : Retains Φ Ψ a b := by
  refine .of_table hchildren hagenda ?_
  rw [htable]
  exact id

theorem retains_foldl {γ : Type} {f : System → γ → System} (h : ∀ w x, Retains Φ Ψ w (f w x))
    (xs : List γ) (w : System) : Retains Φ Ψ w (xs.foldl f w) := by
  induction xs generalizing w with
  | nil => exact .refl w
  | cons x xs ih => exact (h w x).trans (ih (f w x))

theorem Peopled.mono {Φ' : Process → Prop} {Ψ' : Serial → Option ChildId → Prop}
    (h : w.Peopled Φ Ψ) (hΦ : ∀ x, Φ x → Φ' x) (hΨ : ∀ s c, Ψ s c → Ψ' s c) : w.Peopled Φ' Ψ' := by
  refine ⟨fun x hx => hΦ x (h.present x hx), fun entry he => ?_⟩
  have hmeets := h.coming entry he
  rcases entry with ⟨due, x | ⟨serial, child, signal⟩ | _⟩
  · exact hΦ x hmeets
  · exact hΨ serial child hmeets
  · trivial

theorem shell?_endChild (w : System) (c : ChildId) (code : Child → Int) :
    (w.endChild c code).shell? = w.shell? := by
  unfold endChild
  cases hc : w.children[c]? with
  | none => rfl
  | some child =>
    dsimp only
    split
    · rfl
    · funext i
      unfold shell?
      by_cases hi : c = i
      · subst hi
        rw [Array.getElem?_setIfInBounds_self_of_lt (Array.getElem?_eq_some_iff.mp hc).1, hc]
        rfl
      · rw [Array.getElem?_setIfInBounds_ne hi]

theorem retains_endChild (w : System) (c : ChildId) (code : Child → Int) :
    Retains Φ Ψ w (w.endChild c code) := by
  refine ⟨shell?_endChild w c code, ?_, ?_⟩
  · rw [table_endChild]
    exact id
  · rw [agenda_endChild]
    exact id

theorem mem_bury {table : ProcessTable} {serial : Serial} {x : Process}
    (h : x ∈ table.bury serial) : x ∈ table ∨ ∃ y ∈ table, x = { y with zombie := true } := by
  obtain ⟨y, hy, hx⟩ := List.mem_filterMap.mp h
  split at hx
  · split at hx
    · exact .inr ⟨y, hy, (Option.some.inj hx).symm⟩
    · cases hx
  · exact .inl (Option.some.inj hx ▸ hy)

theorem mem_update {table : ProcessTable} {serial : Serial} {change : Process → Process}
    {x : Process}
    (h : x ∈ table.update serial change) : x ∈ table ∨ ∃ y ∈ table, x = change y := by
  obtain ⟨y, hy, rfl⟩ := List.mem_map.mp h
  split
  · exact .inr ⟨y, hy, rfl⟩
  · exact .inl hy

theorem retains_die (hl : Lasting Φ Ψ) (w : System) (serial : Serial) (child : Option ChildId)
    (signal : Option Signal) : Retains Φ Ψ w (w.die serial child signal) := by
  have hbury : Retains Φ Ψ w { w with table := w.table.bury serial } := by
    refine .of_table rfl rfl fun h x hx => ?_
    rcases mem_bury hx with hx | ⟨y, hy, rfl⟩
    · exact h x hx
    · exact hl.bury y (h y hy)
  cases child with
  | none => exact hbury
  | some c =>
    cases signal with
    | none => exact hbury
    | some signal => exact hbury.trans (retains_endChild _ c _)

theorem retains_onPipe (w : System) (c : ChildId) (change : Pipe → Pipe) :
    Retains Φ Ψ w (w.onPipe c change) := by
  refine ⟨funext fun i => ?_, id, id⟩
  unfold shell? onPipe
  rw [Array.getElem?_modify]
  split
  · rw [Option.map_map]
    rfl
  · rfl

theorem retains_apply (hl : Lasting Φ Ψ) (w : System) {x : Happening} (h : x.Meets Φ Ψ) :
    Retains Φ Ψ w (w.apply x) := by
  cases x with
  | birth p =>
    refine .of_table rfl rfl fun hw x hx => ?_
    rcases ProcessTable.mem_insert hx with rfl | hx
    · exact h
    · exact hw x hx
  | death serial child signal => exact retains_die hl w serial child signal
  | program c event =>
    cases event with
    | exit code =>
      simp only [apply, runEvent, exitShell]
      split
      · exact .refl w
      next child _ =>
        split
        · exact .refl w
        · have hremove : Retains Φ Ψ w { w with table := w.table.remove child.serial } :=
            .of_table rfl rfl fun h x hx => h x (List.mem_filter.mp hx).1
          exact hremove.trans (retains_endChild _ c _)
    | _ => exact retains_onPipe w c _

theorem retains_settleOrPlan (hl : Lasting Φ Ψ) (w : System) (delay : Nat) {x : Happening}
    (h : x.Meets Φ Ψ) : Retains Φ Ψ w (w.settleOrPlan delay x) := by
  unfold settleOrPlan
  split
  · exact retains_apply hl w h
  · refine ⟨rfl, id, fun hw entry he => ?_⟩
    rcases mem_schedule.mp he with rfl | he
    · exact h
    · exact hw entry he

theorem retains_bear (hl : Lasting Φ Ψ) (w : System) (b : Birth)
    (h : Φ { b.spec with serial := w.serials }) : Retains Φ Ψ w (w.bear b) := by
  have hborn : Retains Φ Ψ w ({ w with serials := w.serials + 1 }.settleOrPlan b.delay
      (.birth { b.spec with serial := w.serials })) :=
    (Retains.of_eq rfl rfl rfl : Retains Φ Ψ w { w with serials := w.serials + 1 }).trans
      (retains_settleOrPlan hl _ _ h)
  unfold bear
  cases b.lifetime with
  | none => exact hborn
  | some lifetime =>
    refine hborn.trans (retains_settleOrPlan hl _ _ ?_)
    exact hl.death { b.spec with serial := w.serials } h

theorem Peopled.foldl_apply (hl : Lasting Φ Ψ) {due : List (Instant × Happening)}
    (hdue : ∀ entry ∈ due, entry.2.Meets Φ Ψ) (w : System) :
    Retains Φ Ψ w (due.foldl (fun w entry => { w with now := entry.1 }.apply entry.2) w) := by
  induction due generalizing w with
  | nil => exact .refl w
  | cons entry due ih =>
    obtain ⟨hentry, hrest⟩ := List.forall_mem_cons.mp hdue
    have hone : Retains Φ Ψ w { w with now := entry.1 } := .of_eq rfl rfl rfl
    exact (hone.trans (retains_apply hl _ hentry)).trans (ih hrest _)

/-- Whatever happens until a moment, the same holds of the processes as before. -/
theorem Peopled.retains_advance (hl : Lasting Φ Ψ) (h : w.Peopled Φ Ψ) (t : Instant) :
    Retains Φ Ψ w (w.advance t) := by
  have hleft : Retains Φ Ψ w { w with agenda := w.agenda.dropWhile (isDue t) } :=
    ⟨rfl, id, fun hw entry he => hw entry ((List.dropWhile_sublist _).subset he)⟩
  have hdue := Peopled.foldl_apply hl
    (fun entry he => h.coming entry ((List.takeWhile_sublist (isDue t)).subset he))
    { w with agenda := w.agenda.dropWhile (isDue t) }
  have hall := hleft.trans hdue
  exact ⟨hall.shells, hall.present, hall.coming⟩

theorem retains_deliver (hl : Lasting Φ Ψ) (h : ∀ x ∈ w.table, Φ x) (serial : Serial)
    (signal : Signal) :
    Retains Φ Ψ w (w.deliver serial signal) := by
  have hmark : ∀ change : Process → Process, (∀ x, Φ x → Φ (change x)) →
      Retains Φ Ψ w { w with table := w.table.update serial change } := by
    refine fun change hc => .of_table rfl rfl fun hw x hx => ?_
    rcases mem_update hx with hx | ⟨y, hy, rfl⟩
    · exact hw x hx
    · exact hc y (hw y hy)
  unfold deliver
  cases hd : w.table.deref? serial with
  | none => exact .refl w
  | some x =>
    have hserial : x.serial = serial := by
      simpa using List.find?_some (p := fun x : Process => x.serial == serial) hd
    have hdeath : Ψ serial x.child := by
      have hx := hl.death x (h x (List.mem_of_find?_eq_some hd))
      rwa [hserial] at hx
    cases signal with
    | term =>
      dsimp only
      split
      · exact .refl w
      · cases x.onTerm with
        | none => exact hmark _ hl.term
        | some delay => exact (hmark _ hl.term).trans (retains_settleOrPlan hl _ _ hdeath)
    | kill =>
      dsimp only
      split
      · exact .refl w
      · cases x.onKill with
        | none => exact hmark _ hl.kill
        | some delay => exact (hmark _ hl.kill).trans (retains_settleOrPlan hl _ _ hdeath)

theorem retains_signalProcess (hl : Lasting Φ Ψ) (h : ∀ x ∈ w.table, Φ x) (p : ProcessRef)
    (signal : Signal) : Retains Φ Ψ w (w.signalProcess p signal).1 := by
  have hrecord : Retains Φ Ψ w (w.record (.single p.pid signal)) := .of_eq rfl rfl rfl
  unfold signalProcess
  dsimp only
  split
  · exact hrecord
  · split
    · exact hrecord.trans
        (retains_deliver (w := w.record (.single p.pid signal)) hl h p.serial signal)
    · exact hrecord

theorem retains_signalGroup (hl : Lasting Φ Ψ) (h : ∀ x ∈ w.table, Φ x) (pgid : Int)
    (signal : Signal) :
    Retains Φ Ψ w (w.signalGroup pgid signal).1 := by
  have hrecord : Retains Φ Ψ w (w.record (.group pgid signal)) := .of_eq rfl rfl rfl
  have hall : ∀ (members : ProcessTable) (u : System), (∀ x ∈ u.table, Φ x) →
      Retains Φ Ψ u (members.foldl (fun u x => u.deliver x.serial signal) u) := by
    intro members
    induction members with
    | nil => exact fun u _ => .refl u
    | cons x members ih =>
      intro u hu
      have hone := retains_deliver hl hu x.serial signal
      exact hone.trans (ih _ (hone.present hu))
  unfold signalGroup
  dsimp only
  split
  · exact hrecord
  · exact hrecord
  · exact hrecord.trans (hall _ (w.record (.group pgid signal)) h)

theorem retains_send (hl : Lasting Φ Ψ) (h : ∀ x ∈ w.table, Φ x) (x : Sending) :
    Retains Φ Ψ w (w.send x) := by
  cases x with
  | group pgid signal => exact retains_signalGroup hl h pgid signal
  | single p signal => exact retains_signalProcess hl h p signal

def IsShell (shell? : ChildId → Option Serial) (serial : Serial) (child : Option ChildId) : Prop :=
  ∀ c, child = some c → shell? c = some serial

def Linked (w : System) : Prop :=
  w.Peopled (fun x => IsShell w.shell? x.serial x.child) (IsShell w.shell?)

theorem lasting_shells (shell? : ChildId → Option Serial) :
    Lasting (fun x => IsShell shell? x.serial x.child) (IsShell shell?) :=
  ⟨fun _ h => h, fun _ h => h, fun _ h => h, fun _ h => h⟩

theorem isShell_none (shell? : ChildId → Option Serial) (serial : Serial) :
    IsShell shell? serial none := by
  intro c h
  cases h

theorem Linked.retains (h : a.Linked)
    (hr : Retains (fun x => IsShell a.shell? x.serial x.child) (IsShell a.shell?) a b) :
    b.Linked := by
  unfold Linked
  rw [hr.shells]
  exact hr.peopled h

theorem Linked.foldl_bear (h : w.Linked) (births : List Birth) :
    (births.foldl bear w).Linked :=
  h.retains (retains_foldl (fun u b =>
    retains_bear (lasting_shells _) u b (isShell_none _ _)) births w)

theorem Linked.withShell (h : w.Linked) (p : Program) : (w.withShell p).Linked := by
  have hshells : ∀ c s, w.shell? c = some s → (w.withShell p).shell? c = some s := by
    intro c s hs
    obtain ⟨child, hc, rfl⟩ := Option.map_eq_some_iff.mp hs
    have hlt : c < w.children.size := (Array.getElem?_eq_some_iff.mp hc).1
    have hpush : (w.withShell p).children[c]? = some child := by
      simp [System.withShell, Array.getElem?_push, Nat.ne_of_lt hlt, hc]
    rw [shell?, hpush]
    rfl
  have hold : w.Peopled (fun x => IsShell (w.withShell p).shell? x.serial x.child)
      (IsShell (w.withShell p).shell?) :=
    h.mono (fun x hx c hc => hshells c _ (hx c hc)) fun s child hs c hc => hshells c s (hs c hc)
  refine ⟨fun x hx => ?_, hold.coming⟩
  rcases ProcessTable.mem_insert hx with rfl | hx
  · intro c hc
    obtain rfl := Option.some.inj hc
    simp [shell?, System.withShell]
  · exact hold.present x hx

theorem Linked.startProgram (h : w.Linked) (p : Program) : (w.startProgram p).1.Linked := by
  rw [startProgram_eq]
  refine ((h.withShell p).foldl_bear p.family).retains
    (retains_foldl (fun u entry => ?_) p.events _)
  refine retains_settleOrPlan (lasting_shells _) u entry.1 ?_
  trivial

theorem Linked.spawn (h : w.Linked) (launch : Launch) : (w.spawn launch).1.Linked := by
  have hrecord : ∀ programs spawned, { w with programs, spawned }.Linked := fun _ _ =>
    ⟨h.present, h.coming⟩
  unfold System.spawn
  rcases w.programs with _ | ⟨next, rest⟩
  · exact hrecord _ _
  · cases next with
    | refused reason => exact hrecord _ _
    | program p =>
      exact (hrecord rest (w.spawned.push ⟨launch, some p.shell.pid⟩)).startProgram p

theorem ongoing_linked : Ongoing fun a b => a.Linked → b.Linked where
  refl _ h := h
  trans hab hbc h := hbc (hab h)
  advance _ t h := h.retains (Peopled.retains_advance (lasting_shells _) h t)
  emptyPipe _ c h := h.retains (retains_onPipe _ c _)
  signalProcess _ p signal h :=
    h.retains (retains_signalProcess (lasting_shells _) h.present p signal)
  signalGroup _ pgid signal h :=
    h.retains (retains_signalGroup (lasting_shells _) h.present pgid signal)
  spawn _ launch h := h.spawn launch

end System

end Overseer.World

namespace Overseer.Session

open World Timeline

/-- At every time each process that is the shell of a child is the one that the child knows. -/
theorem linked_later {s : Session} {w : System} {others : List Birth}
    {t : Timeline Session Activity Result}
    (h : Later machinery { state := s.afresh w others } t) : t.state.fleet.scene.system.Linked := by
  have hempty :
      System.Linked { w with table := [], agenda := [], children := #[], endings := #[] } :=
    ⟨List.forall_mem_nil _, List.forall_mem_nil _⟩
  exact System.ongoing_linked.later h (hempty.foldl_bear others)

end Overseer.Session
