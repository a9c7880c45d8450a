import Mathlib.Data.List.Basic
import Overseer.World.Calls

/-!
# Counts of processes

Processes are counted, those that exist and those that are still to be born. Whatever happens in a
system, the processes of one serial never get more: a serial is given out once (`System.Sound`), and
a process that is dead stays dead, also when its pid is used again (`System.Gone`). One count serves
for both: the existing processes that `p` holds of, and the awaited ones that `q` holds of.
-/

namespace Overseer.World

def Happening.bears (q : Process → Bool) : Happening → Bool
  | .birth p => q p
  | _ => false

def awaited (q : Process → Bool) (agenda : List (Instant × Happening)) : Nat :=
  agenda.countP fun entry => entry.2.bears q

/-- Two things that can be said of processes of one serial, the second before their birth, and that
nothing that happens to a process makes true of it. -/
structure Trait (s : Nat) (p q : Process → Bool) : Prop where
  serial : ∀ x, q x = true → x.serial = s
  born : ∀ x, p x = true → q x = true
  bury : ∀ x : Process, p { x with zombie := true } = true → p x = true
  term : ∀ x : Process, p { x with termSeen := true } = p x
  kill : ∀ x : Process, p { x with killSeen := true } = p x

def numbered (s : Nat) (x : Process) : Bool := x.serial == s

def living (s : Nat) (x : Process) : Bool := x.serial == s && !x.zombie

theorem trait_numbered (s : Nat) : Trait s (numbered s) (numbered s) where
  serial _ h := eq_of_beq h
  born _ h := h
  bury _ h := h
  term _ := rfl
  kill _ := rfl

theorem trait_living (s : Nat) : Trait s (living s) (numbered s) where
  serial _ h := eq_of_beq h
  born _ h := (Bool.and_eq_true_iff.mp h).1
  bury x h := by simp [living] at h
  term _ := rfl
  kill _ := rfl

theorem trait_awaited (s : Nat) : Trait s (fun _ => false) (numbered s) where
  serial _ h := eq_of_beq h
  born _ h := by cases h
  bury _ h := h
  term _ := rfl
  kill _ := rfl

section

variable {s : Nat} {p q : Process → Bool}

theorem countP_insert (p : Process → Bool) (table : ProcessTable) (x : Process) :
    (table.insert x).countP p ≤ table.countP p + if p x then 1 else 0 := by
  induction table with
  | nil => simp [ProcessTable.insert, List.countP_cons]
  | cons y table ih =>
    unfold ProcessTable.insert
    split
    · simp only [List.countP_cons]
      omega
    · split
      · simp only [List.countP_cons]
        omega
      · simp only [List.countP_cons]
        omega

theorem countP_bury (h : Trait s p q) (table : ProcessTable) (serial : Serial) :
    (table.bury serial).countP p ≤ table.countP p := by
  unfold ProcessTable.bury
  induction table with
  | nil => exact Nat.le_refl 0
  | cons x table ih =>
    rw [List.filterMap_cons, List.countP_cons]
    by_cases hx : x.serial = serial ∧ (!x.zombie) = true
    · by_cases hz : x.leavesZombie = true
      · rw [if_pos hx, if_pos hz]
        simp only [List.countP_cons]
        by_cases hp : p { x with zombie := true } = true
        · rw [if_pos hp, if_pos (h.bury x hp)]
          omega
        · rw [if_neg hp]
          omega
      · rw [if_pos hx, if_neg hz]
        exact Nat.le_add_right_of_le ih
    · rw [if_neg hx]
      simp only [List.countP_cons]
      omega

theorem countP_remove (p : Process → Bool) (table : ProcessTable) (serial : Serial) :
    (table.remove serial).countP p ≤ table.countP p :=
  List.Sublist.countP_le List.filter_sublist

theorem countP_update (table : ProcessTable) (serial : Serial) (change : Process → Process)
    (h : ∀ x, p (change x) = p x) : (table.update serial change).countP p = table.countP p := by
  induction table with
  | nil => rfl
  | cons x table ih =>
    have hx : p (if x.serial = serial then change x else x) = p x := by
      split
      · exact h x
      · rfl
    have hc : (ProcessTable.update (x :: table) serial change) =
        (if x.serial = serial then change x else x) :: ProcessTable.update table serial change :=
          rfl
    rw [hc, List.countP_cons, List.countP_cons, ih, hx]

theorem countP_living_add_countP_dead (s : Nat) (table : ProcessTable) :
    table.countP (living s) + table.countP (fun x => x.serial == s && x.zombie) =
      table.countP (numbered s) := by
  induction table with
  | nil => rfl
  | cons x table ih =>
    have hone : (if living s x then 1 else 0) + (if x.serial == s && x.zombie then 1 else 0) =
        if numbered s x then 1 else 0 := by
      cases hs : x.serial == s <;> cases hz : x.zombie <;> simp [living, numbered, hs, hz]
    simp only [List.countP_cons]
    omega

theorem awaited_schedule (q : Process → Bool) (agenda : List (Instant × Happening)) (due : Instant)
    (h : Happening) :
    awaited q (schedule agenda due h) = awaited q agenda + if h.bears q then 1 else 0 := by
  induction agenda with
  | nil => simp [schedule, awaited, List.countP_cons]
  | cons entry agenda ih =>
    unfold schedule
    split
    · simp [awaited, List.countP_cons]
    · simp only [awaited, List.countP_cons] at ih ⊢
      omega

end

namespace System

/-- How many processes there are that `p` holds of, and that are awaited of which `q` holds. -/
def tally (p q : Process → Bool) (w : System) : Nat := w.table.countP p + awaited q w.agenda

/-- A system that has gone on from another one: no more processes of a serial have come than were
there or awaited, unless the serial is new, and of each new one there is one at most. -/
structure Evolves (a b : System) : Prop where
  serials : a.serials ≤ b.serials
  tally : ∀ {s : Nat} {p q}, Trait s p q →
    b.tally p q ≤ a.tally p q + if a.serials ≤ s ∧ s < b.serials then 1 else 0

section

variable {a b c w : System}

theorem Evolves.refl (w : System) : Evolves w w := ⟨Nat.le_refl _, fun _ => Nat.le_add_right _ _⟩

theorem Evolves.trans (h : Evolves a b) (k : Evolves b c) : Evolves a c := by
  refine ⟨Nat.le_trans h.serials k.serials, fun {s p q} ht => ?_⟩
  have hab := h.tally ht
  have hbc := k.tally ht
  have hs := h.serials
  have ks := k.serials
  split at hab <;> split at hbc <;> split <;> omega

theorem Evolves.of_eq (htable : b.table = a.table) (hagenda : b.agenda = a.agenda)
    (hserials : b.serials = a.serials) : Evolves a b := by
  refine ⟨Nat.le_of_eq hserials.symm, fun _ => ?_⟩
  rw [System.tally, htable, hagenda]
  exact Nat.le_add_right _ _

theorem Evolves.of_table (hagenda : b.agenda = a.agenda) (hserials : b.serials = a.serials)
    (h : ∀ {s : Nat} {p q}, Trait s p q → b.table.countP p ≤ a.table.countP p) : Evolves a b := by
  refine ⟨Nat.le_of_eq hserials.symm, fun ht => ?_⟩
  have hle := h ht
  rw [System.tally, System.tally, hagenda]
  omega

end

@[simp] theorem table_endChild (w : System) (c : ChildId) (code : Child → Int) :
    (w.endChild c code).table = w.table := by
  unfold endChild
  split
  · rfl
  · split <;> rfl

@[simp] theorem agenda_endChild (w : System) (c : ChildId) (code : Child → Int) :
    (w.endChild c code).agenda = w.agenda := by
  unfold endChild
  split
  · rfl
  · split <;> rfl

@[simp] theorem serials_endChild (w : System) (c : ChildId) (code : Child → Int) :
    (w.endChild c code).serials = w.serials := by
  unfold endChild
  split
  · rfl
  · split <;> rfl

@[simp] theorem now_endChild (w : System) (c : ChildId) (code : Child → Int) :
    (w.endChild c code).now = w.now := by
  unfold endChild
  split
  · rfl
  · split <;> rfl

section

variable {s : Nat} {p q : Process → Bool}

theorem agenda_apply (w : System) (h : Happening) : (w.apply h).agenda = w.agenda := by
  cases h with
  | birth x => rfl
  | death serial child signal =>
    cases child <;> cases signal <;> simp [apply, die]
  | program c event =>
    cases event with
    | exit code =>
      simp only [apply, runEvent, exitShell]
      split
      · rfl
      · split
        · rfl
        · exact agenda_endChild _ _ _
    | _ => rfl

theorem serials_apply (w : System) (h : Happening) : (w.apply h).serials = w.serials := by
  cases h with
  | birth x => rfl
  | death serial child signal =>
    cases child <;> cases signal <;> simp [apply, die]
  | program c event =>
    cases event with
    | exit code =>
      simp only [apply, runEvent, exitShell]
      split
      · rfl
      · split
        · rfl
        · exact serials_endChild _ _ _
    | _ => rfl

theorem countP_apply (ht : Trait s p q) (w : System) (h : Happening) :
    (w.apply h).table.countP p ≤ w.table.countP p + if h.bears q then 1 else 0 := by
  cases h with
  | birth x =>
    refine Nat.le_trans (countP_insert p w.table x) (Nat.add_le_add_left ?_ _)
    by_cases hp : p x = true
    · have hq : q x = true := ht.born x hp
      simp [Happening.bears, hp, hq]
    · simp [hp]
  | death serial child signal =>
    have htable : (w.apply (.death serial child signal)).table = w.table.bury serial := by
      cases child <;> cases signal <;> simp [apply, die]
    rw [htable]
    exact Nat.le_add_right_of_le (countP_bury ht w.table serial)
  | program c event =>
    refine Nat.le_add_right_of_le ?_
    cases event with
    | exit code =>
      simp only [apply, runEvent, exitShell]
      split
      · exact Nat.le_refl _
      · split
        · exact Nat.le_refl _
        · rw [table_endChild]
          exact countP_remove p w.table _
    | _ => exact Nat.le_refl _

theorem foldl_apply (ht : Trait s p q) (due : List (Instant × Happening)) (w : System) :
    (due.foldl (fun w entry => { w with now := entry.1 }.apply entry.2) w).agenda = w.agenda ∧
      (due.foldl (fun w entry => { w with now := entry.1 }.apply entry.2) w).serials = w.serials ∧
      (due.foldl (fun w entry => { w with now := entry.1 }.apply entry.2) w).table.countP p ≤
        w.table.countP p + awaited q due := by
  induction due generalizing w with
  | nil => exact ⟨rfl, rfl, Nat.le_refl _⟩
  | cons entry due ih =>
    obtain ⟨hagenda, hserials, htable⟩ := ih ({ w with now := entry.1 }.apply entry.2)
    have hone := countP_apply ht { w with now := entry.1 } entry.2
    rw [List.foldl_cons]
    refine ⟨hagenda.trans (agenda_apply _ _), hserials.trans (serials_apply _ _), ?_⟩
    simp only [awaited, List.countP_cons] at htable hone ⊢
    omega

theorem evolves_advance (w : System) (t : Instant) : Evolves w (w.advance t) := by
  have hserials : (w.advance t).serials = w.serials :=
    (foldl_apply (trait_numbered 0) _ _).2.1
  refine ⟨Nat.le_of_eq hserials.symm, fun {s p q} ht => ?_⟩
  obtain ⟨hagenda, -, htable⟩ := foldl_apply ht (w.agenda.takeWhile (isDue t))
    { w with agenda := w.agenda.dropWhile (isDue t) }
  have hsplit : awaited q w.agenda =
      awaited q (w.agenda.takeWhile (isDue t)) + awaited q (w.agenda.dropWhile (isDue t)) := by
    rw [awaited, awaited, awaited, ← List.countP_append, List.takeWhile_append_dropWhile]
  have hleft : (w.advance t).agenda = w.agenda.dropWhile (isDue t) := hagenda
  have hcount : (w.advance t).table.countP p ≤
      w.table.countP p + awaited q (w.agenda.takeWhile (isDue t)) := htable
  rw [System.tally, System.tally, hleft, hsplit]
  omega

theorem evolves_settleOrPlan_of_not_birth (w : System) (delay : Nat) {h : Happening}
    (hn : ∀ q, h.bears q = false) : Evolves w (w.settleOrPlan delay h) := by
  unfold settleOrPlan
  split
  · refine .of_table (agenda_apply w h) (serials_apply w h) fun ht => ?_
    have hle := countP_apply ht w h
    rwa [hn, if_neg Bool.false_ne_true] at hle
  · refine ⟨Nat.le_refl _, fun {s p q} _ => ?_⟩
    rw [System.tally, System.tally, plan, awaited_schedule, hn]
    simp

theorem evolves_birth (w : System) (delay : Nat) (x : Process) (hx : x.serial = w.serials) :
    Evolves w ({ w with serials := w.serials + 1 }.settleOrPlan delay (.birth x)) := by
  have hone : ∀ {s : Nat} {p q}, Trait s p q → (if (Happening.birth x).bears q then 1 else 0) ≤
      if w.serials ≤ s ∧ s < w.serials + 1 then 1 else 0 := by
    intro s p q ht
    by_cases hq : q x = true
    · obtain rfl := ht.serial x hq
      rw [hx]
      simp [Happening.bears, hq]
    · simp [Happening.bears, hq]
  unfold settleOrPlan
  split
  · refine ⟨Nat.le_succ _, fun {s p q} ht => ?_⟩
    have hle := countP_apply ht { w with serials := w.serials + 1 } (.birth x)
    have hnew := hone ht
    rw [System.tally, System.tally, agenda_apply]
    rw [serials_apply]
    dsimp only at hle ⊢
    omega
  · refine ⟨Nat.le_succ _, fun {s p q} ht => ?_⟩
    have hnew := hone ht
    rw [System.tally, System.tally, plan, awaited_schedule]
    dsimp only
    omega

theorem evolves_bear (w : System) (b : Birth) : Evolves w (w.bear b) := by
  unfold bear
  have hborn := evolves_birth w b.delay { b.spec with serial := w.serials } rfl
  cases b.lifetime with
  | none => exact hborn
  | some lifetime => exact hborn.trans (evolves_settleOrPlan_of_not_birth _ _ fun _ => rfl)

theorem evolves_emptyPipe (w : System) (c : ChildId) : Evolves w (w.emptyPipe c) :=
  .of_eq rfl rfl rfl

theorem evolves_deliver (w : System) (serial : Serial) (signal : Signal) :
    Evolves w (w.deliver serial signal) := by
  have hmark : ∀ change : Process → Process,
      (∀ {s : Nat} {p q}, Trait s p q → ∀ x, p (change x) = p x) →
      Evolves w { w with table := w.table.update serial change } := fun change h =>
    .of_table rfl rfl fun ht => Nat.le_of_eq (countP_update w.table serial change (h ht))
  unfold deliver
  cases w.table.deref? serial with
  | none => exact .refl w
  | some x =>
    cases signal with
    | term =>
      dsimp only
      split
      · exact .refl w
      · cases x.onTerm with
        | none => exact hmark _ fun ht => ht.term
        | some delay =>
          exact (hmark _ fun ht => ht.term).trans
            (evolves_settleOrPlan_of_not_birth _ _ fun _ => rfl)
    | kill =>
      dsimp only
      split
      · exact .refl w
      · cases x.onKill with
        | none => exact hmark _ fun ht => ht.kill
        | some delay =>
          exact (hmark _ fun ht => ht.kill).trans
            (evolves_settleOrPlan_of_not_birth _ _ fun _ => rfl)

theorem evolves_record (w : System) (attempt : Attempt) : Evolves w (w.record attempt) :=
  .of_eq rfl rfl rfl

theorem evolves_signalProcess (w : System) (x : ProcessRef) (signal : Signal) :
    Evolves w (w.signalProcess x signal).1 := by
  have hrecord := evolves_record w (.single x.pid signal)
  unfold signalProcess
  dsimp only
  split
  · exact hrecord
  · split
    · exact hrecord.trans (evolves_deliver _ _ _)
    · exact hrecord

theorem evolves_foldl {γ : Type} {f : System → γ → System} (h : ∀ w x, Evolves w (f w x))
    (xs : List γ) (w : System) : Evolves w (xs.foldl f w) := by
  induction xs generalizing w with
  | nil => exact .refl w
  | cons x xs ih => exact (h w x).trans (ih (f w x))

theorem evolves_signalGroup (w : System) (pgid : Int) (signal : Signal) :
    Evolves w (w.signalGroup pgid signal).1 := by
  have hrecord := evolves_record w (.group pgid signal)
  unfold signalGroup
  dsimp only
  split
  · exact hrecord
  · exact hrecord
  · exact hrecord.trans
      (evolves_foldl (fun w (x : Process) => evolves_deliver w x.serial signal) _ _)

/-- The system with the shell of a program, before anything else comes of the program. -/
def withShell (w : System) (p : Program) : System :=
  let child : Child :=
    { pid := p.shell.pid, serial := w.serials, holdsPipe := p.holdsPipe, termCode := p.termCode
      pipe := if p.hasOutput then some {} else none }
  { w with
    serials := w.serials + 1
    children := w.children.push child
    table := w.table.insert { p.shell with serial := w.serials, child := some w.children.size } }

theorem startProgram_eq (w : System) (p : Program) :
    w.startProgram p =
      (p.events.foldl
        (fun u entry => u.settleOrPlan entry.1 (.program w.children.size entry.2))
        (p.family.foldl bear (w.withShell p)), w.children.size) := rfl

theorem evolves_withShell (w : System) (p : Program) : Evolves w (w.withShell p) :=
  (evolves_birth w 0 { p.shell with serial := w.serials, child := some w.children.size } rfl).trans
    (.of_eq rfl rfl rfl)

theorem evolves_startProgram (w : System) (p : Program) : Evolves w (w.startProgram p).1 := by
  rw [startProgram_eq]
  refine (evolves_withShell w p).trans ((evolves_foldl evolves_bear p.family _).trans ?_)
  refine evolves_foldl (fun u entry => ?_) p.events _
  exact evolves_settleOrPlan_of_not_birth u entry.1 fun _ => rfl

theorem evolves_spawn (w : System) (launch : Launch) : Evolves w (w.spawn launch).1 := by
  unfold spawn
  rcases w.programs with _ | ⟨next, rest⟩
  · exact .of_eq rfl rfl rfl
  · cases next with
    | refused reason => exact .of_eq rfl rfl rfl
    | program p =>
      have hrecord : Evolves w
          { w with programs := rest, spawned := w.spawned.push ⟨launch, some p.shell.pid⟩ } :=
        .of_eq rfl rfl rfl
      exact hrecord.trans (evolves_startProgram _ p)

end

/-- There is no serial that two processes have, or that has not been given out. -/
def Sound (w : System) : Prop :=
  ∀ s : Nat, w.tally (numbered s) (numbered s) ≤ if s < w.serials then 1 else 0

/-- A process is gone for good: it has been there, and is not alive and not to be born. -/
def Gone (w : System) (serial : Nat) : Prop :=
  serial < w.serials ∧ w.tally (living serial) (numbered serial) = 0

def Known (w : System) (serial : Nat) : Prop :=
  serial < w.serials ∧ w.tally (fun _ => false) (numbered serial) = 0

def Dead (w : System) (p : ProcessRef) : Prop :=
  ∀ x, w.table.deref? p.serial = some x → x.zombie = true

section

variable {a b w : System} {serial : Nat}

theorem Evolves.sound (h : Evolves a b) (ha : a.Sound) : b.Sound := by
  intro s
  have hle := h.tally (trait_numbered s)
  have hs := ha s
  have hserials := h.serials
  split at hle <;> split at hs <;> split <;> omega

theorem Evolves.gone (h : Evolves a b) (hg : a.Gone serial) : b.Gone serial := by
  obtain ⟨hlt, hnone⟩ := hg
  have hle := h.tally (trait_living serial)
  have hserials := h.serials
  refine ⟨Nat.lt_of_lt_of_le hlt hserials, ?_⟩
  rw [if_neg (fun hn => Nat.not_lt.mpr hn.1 hlt)] at hle
  omega

theorem Evolves.known (h : Evolves a b) (hk : a.Known serial) : b.Known serial := by
  obtain ⟨hlt, hnone⟩ := hk
  have hle := h.tally (trait_awaited serial)
  have hserials := h.serials
  refine ⟨Nat.lt_of_lt_of_le hlt hserials, ?_⟩
  rw [if_neg (fun hn => Nat.not_lt.mpr hn.1 hlt)] at hle
  omega

theorem Sound.of_empty (htable : w.table = []) (hagenda : w.agenda = []) : w.Sound := by
  intro s
  rw [System.tally, htable, hagenda]
  exact Nat.zero_le _

theorem Sound.known (h : w.Sound) {x : Process} (hx : x ∈ w.table) : w.Known x.serial := by
  have hs := h x.serial
  have hpos : 0 < w.table.countP (numbered x.serial) :=
    List.countP_pos_iff.mpr ⟨x, hx, beq_self_eq_true _⟩
  rw [System.tally] at hs
  have hlt : x.serial < w.serials := by
    by_contra hn
    rw [if_neg hn] at hs
    omega
  refine ⟨hlt, ?_⟩
  rw [if_pos hlt] at hs
  have hnone : w.table.countP (fun _ => false) = 0 := by simp
  rw [System.tally, hnone]
  omega

theorem eq_of_countP_le_one {γ : Type} {p : γ → Bool} {xs : List γ} {x y : γ}
    (h : xs.countP p ≤ 1) (hx : x ∈ xs) (hpx : p x = true) (hy : y ∈ xs) (hpy : p y = true) :
    x = y := by
  rw [List.countP_eq_length_filter] at h
  have hxf := List.mem_filter.mpr ⟨hx, hpx⟩
  have hyf := List.mem_filter.mpr ⟨hy, hpy⟩
  obtain ⟨z, hz⟩ := List.length_eq_one_iff.mp (Nat.le_antisymm h (List.length_pos_of_mem hxf))
  rw [hz] at hxf hyf
  rw [List.mem_singleton.mp hxf, List.mem_singleton.mp hyf]

/-- Where the serials are unique, a reference leads to the process that it was taken of. -/
theorem Sound.deref? (h : w.Sound) {x : Process} (hx : x ∈ w.table) :
    w.table.deref? x.serial = some x := by
  cases hd : w.table.deref? x.serial with
  | none => exact absurd (beq_self_eq_true x.serial) (List.find?_eq_none.mp hd x hx)
  | some y =>
    have hone : w.table.countP (numbered x.serial) ≤ 1 := by
      have hcount := h x.serial
      rw [System.tally] at hcount
      split at hcount <;> omega
    exact congrArg some (eq_of_countP_le_one hone (List.mem_of_find?_eq_some hd)
      (List.find?_some (p := fun y : Process => y.serial == x.serial) hd) hx
      (beq_self_eq_true x.serial))

theorem Sound.eq_of_serial (h : w.Sound) {x y : Process} (hx : x ∈ w.table) (hy : y ∈ w.table)
    (hserial : x.serial = y.serial) : x = y :=
  Option.some.inj ((h.deref? hx).symm.trans (hserial ▸ h.deref? hy))

theorem Sound.ne_awaited (h : w.Sound) {x y : Process} {due : Instant} (hx : x ∈ w.table)
    (hy : (due, .birth y) ∈ w.agenda) : y.serial ≠ x.serial := by
  intro hserial
  have hnone : awaited (numbered x.serial) w.agenda = 0 := by
    have hknown := (h.known hx).2
    rw [System.tally] at hknown
    omega
  have hbears := List.countP_eq_zero.mp hnone _ hy
  exact hbears (beq_iff_eq.mpr hserial)

theorem Sound.awaited_eq (h : w.Sound) {x y : Process} {due other : Instant}
    (hx : (due, .birth x) ∈ w.agenda) (hy : (other, .birth y) ∈ w.agenda)
    (hserial : x.serial = y.serial) : x = y := by
  have hone : awaited (numbered y.serial) w.agenda ≤ 1 := by
    have hcount := h y.serial
    rw [System.tally] at hcount
    split at hcount <;> omega
  have hsame := eq_of_countP_le_one hone hx (beq_iff_eq.mpr hserial) hy (beq_self_eq_true y.serial)
  exact Happening.birth.inj (Prod.mk.inj hsame).2

theorem Known.gone (h : w.Known serial) (hsound : w.Sound)
    (hdead : ∀ x, w.table.deref? serial = some x → x.zombie = true) : w.Gone serial := by
  obtain ⟨hlt, hnone⟩ := h
  refine ⟨hlt, ?_⟩
  have hawaited : awaited (numbered serial) w.agenda = 0 := (Nat.add_eq_zero_iff.mp hnone).2
  have hone := hsound serial
  rw [if_pos hlt, System.tally, hawaited] at hone
  rw [System.tally, hawaited]
  have hsplit := countP_living_add_countP_dead serial w.table
  cases hd : w.table.deref? serial with
  | none =>
    have hzero : w.table.countP (numbered serial) = 0 :=
      List.countP_eq_zero.mpr fun x hx => List.find?_eq_none.mp hd x hx
    omega
  | some x =>
    have hpos : 0 < w.table.countP fun x => x.serial == serial && x.zombie := by
      refine List.countP_pos_iff.mpr ⟨x, List.mem_of_find?_eq_some hd, ?_⟩
      rw [List.find?_some (p := fun x : Process => x.serial == serial) hd, hdead x hd]
      rfl
    omega

theorem Gone.dead (h : w.Gone serial) {x : Process} (hx : w.table.deref? serial = some x) :
    x.zombie = true := by
  have hnone : w.table.countP (living serial) = 0 := (Nat.add_eq_zero_iff.mp h.2).1
  have hmem : x ∈ w.table := List.mem_of_find?_eq_some hx
  have hserial : (x.serial == serial) = true :=
    List.find?_some (p := fun x : Process => x.serial == serial) hx
  have hnot := List.countP_eq_zero.mp hnone x hmem
  simpa [living, hserial] using hnot

end

end System

end Overseer.World
