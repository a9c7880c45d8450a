import Overseer.Proofs.World.Population

/-!
# What happens until a moment

When the clock goes on, what is due happens in order (`System.advance_eq`): where the clock has
stood has no bearing on it, and of an agenda in order it is a part like any other. -/

namespace Overseer.World

namespace ProcessTable

variable {table : ProcessTable} {p : Process} {serial : Serial}

theorem insert_of_lt (h : ∀ x ∈ table, p.pid < x.pid) : table.insert p = p :: table := by
  cases table with
  | nil => rfl
  | cons q table => rw [insert, if_pos (h q List.mem_cons_self)]

theorem bury_of_ne (h : ∀ x ∈ table, x.serial ≠ serial) : table.bury serial = table := by
  unfold bury
  refine (List.filterMap_congr fun x hx => ?_).trans List.filterMap_some
  rw [if_neg fun hs => h x hx hs.1]

theorem update_of_ne (h : ∀ x ∈ table, x.serial ≠ serial) (change : Process → Process) :
    table.update serial change = table := by
  unfold update
  refine (List.map_congr_left fun x hx => ?_).trans (List.map_id table)
  rw [if_neg (h x hx), id]

theorem remove_of_ne (h : ∀ x ∈ table, x.serial ≠ serial) : table.remove serial = table := by
  unfold remove
  exact List.filter_eq_self.mpr fun x hx => by simpa using h x hx

/-- A part of a table with a new process: the process is in it, or whoever had its pid is not. -/
theorem ByPid.filter_insert (h : table.ByPid) (keep : Process → Bool) (p : Process) :
    (table.insert p).filter keep =
      if keep p then ProcessTable.insert (table.filter keep) p
      else (table.filter keep).filter (·.pid != p.pid) := by
  have hfront : ∀ {rest : ProcessTable}, (∀ x ∈ rest, p.pid < x.pid) →
      ProcessTable.insert (rest.filter keep) p = p :: rest.filter keep := fun hr =>
    insert_of_lt fun x hx => hr x (List.mem_filter.mp hx).1
  have hothers : ∀ {rest : ProcessTable}, (∀ x ∈ rest, p.pid < x.pid) →
      (rest.filter keep).filter (·.pid != p.pid) = rest.filter keep := fun hr =>
    List.filter_eq_self.mpr fun x hx => by
      simpa using (Int.ne_of_lt (hr x (List.mem_filter.mp hx).1)).symm
  induction table with
  | nil => cases hp : keep p <;> simp [ProcessTable.insert, hp]
  | cons q table ih =>
    obtain ⟨hq, hrest⟩ := List.pairwise_cons.mp h
    rw [ProcessTable.insert]
    by_cases hlt : p.pid < q.pid
    · have hall : ∀ x ∈ q :: table, p.pid < x.pid := List.forall_mem_cons.mpr
        ⟨hlt, fun x hx => Int.lt_trans hlt (hq x hx)⟩
      rw [if_pos hlt, hfront hall, hothers hall, List.filter_cons]
    · rw [if_neg hlt]
      by_cases heq : p.pid = q.pid
      · have hall : ∀ x ∈ table, p.pid < x.pid := fun x hx => heq ▸ hq x hx
        rw [if_pos heq, List.filter_cons, List.filter_cons]
        cases hp : keep p with
        | true => cases hk : keep q <;> simp [hfront hall, ProcessTable.insert, heq]
        | false =>
          have hsame : (q.pid != p.pid) = false := by simp [heq]
          cases hk : keep q <;>
            simp only [List.filter_cons, hsame, hothers hall, Bool.false_eq_true, if_false, if_true]
      · rw [if_neg heq, List.filter_cons, ih hrest, List.filter_cons]
        have hne : q.pid ≠ p.pid := Ne.symm heq
        cases hp : keep p <;> cases hk : keep q <;> simp [ProcessTable.insert, hlt, heq, hne]

end ProcessTable

theorem filter_schedule {agenda : List (Instant × Happening)}
    (h : agenda.Pairwise fun a b => a.1 ≤ b.1) (keep : Instant × Happening → Bool) (due : Instant)
    (x : Happening) : (schedule agenda due x).filter keep =
      if keep (due, x) then schedule (agenda.filter keep) due x else agenda.filter keep := by
  have hfront : ∀ {rest : List (Instant × Happening)}, (∀ entry ∈ rest, due < entry.1) →
      schedule rest due x = (due, x) :: rest := by
    intro rest hr
    cases rest with
    | nil => rfl
    | cons entry rest => rw [schedule, if_pos (hr entry List.mem_cons_self)]
  induction agenda with
  | nil => cases hk : keep (due, x) <;> simp [schedule, hk]
  | cons first agenda ih =>
    obtain ⟨hfirst, hrest⟩ := List.pairwise_cons.mp h
    rw [schedule]
    by_cases hlt : due < first.1
    · have hall : ∀ entry ∈ first :: agenda, due < entry.1 := List.forall_mem_cons.mpr
        ⟨hlt, fun entry he => Nat.lt_of_lt_of_le hlt (hfirst entry he)⟩
      rw [if_pos hlt, List.filter_cons,
        hfront fun entry he => hall entry (List.mem_filter.mp he).1]
    · rw [if_neg hlt, List.filter_cons, ih hrest, List.filter_cons]
      cases hk : keep (due, x) <;> cases hf : keep first <;> simp [schedule, hlt]

namespace System

variable {w : System}

theorem endChild_at (w : System) (now : Instant) (c : ChildId) (code : Child → Int) :
    { w with now }.endChild c code = { w.endChild c code with now } := by
  unfold endChild
  dsimp only
  split
  · rfl
  · split <;> rfl

theorem apply_at (w : System) (now : Instant) (x : Happening) :
    { w with now }.apply x = { w.apply x with now } := by
  cases x with
  | birth p => rfl
  | death serial child signal =>
    cases child with
    | none => rfl
    | some c =>
      cases signal with
      | none => rfl
      | some signal => exact endChild_at { w with table := w.table.bury serial } now c _
  | program c event =>
    cases event with
    | exit code =>
      simp only [apply, runEvent, exitShell]
      split
      · rfl
      next child _ =>
        split
        · rfl
        · exact endChild_at { w with table := w.table.remove child.serial } now c _
    | _ => rfl

def happen (w : System) (due : List (Instant × Happening)) : System :=
  due.foldl (fun w entry => w.apply entry.2) w

theorem happen_cons (w : System) (entry : Instant × Happening) (due : List (Instant × Happening)) :
    w.happen (entry :: due) = (w.apply entry.2).happen due := rfl

theorem advance_eq (w : System) (t : Instant) : w.advance t =
    { { w with agenda := w.agenda.dropWhile (isDue t) }.happen (w.agenda.takeWhile (isDue t)) with
      now := t } := by
  have hall : ∀ (due : List (Instant × Happening)) (u : System) (now : Instant),
      { due.foldl (fun w entry => { w with now := entry.1 }.apply entry.2) { u with now } with
        now := t } = { u.happen due with now := t } := by
    intro due
    induction due with
    | nil => exact fun u now => rfl
    | cons entry due ih =>
      intro u now
      rw [List.foldl_cons, happen_cons]
      dsimp only
      rw [apply_at u]
      exact ih (u.apply entry.2) entry.1
  exact hall _ { w with agenda := w.agenda.dropWhile (isDue t) } w.now

/-- Where the clock stands has no bearing on what happens until a moment. -/
theorem advance_at (w : System) (now t : Instant) : { w with now }.advance t = w.advance t := by
  have hall : ∀ (due : List (Instant × Happening)) (u : System),
      { { u with now }.happen due with now := t } = { u.happen due with now := t } := by
    intro due
    induction due with
    | nil => exact fun u => rfl
    | cons entry due ih =>
      intro u
      rw [happen_cons, happen_cons, apply_at]
      exact ih (u.apply entry.2)
  rw [advance_eq, advance_eq]
  exact hall _ { w with agenda := w.agenda.dropWhile (isDue t) }

theorem isDue_eq_false_iff {t : Instant} {entry : Instant × Happening} :
    isDue t entry = false ↔ t < entry.1 := by
  simp [isDue]

theorem advance_of_idle {t : Instant} (h : ∀ entry ∈ w.agenda, t < entry.1) :
    w.advance t = { w with now := t } := by
  have hnone : ∀ agenda : List (Instant × Happening), (∀ entry ∈ agenda, t < entry.1) →
      agenda.takeWhile (isDue t) = [] ∧ agenda.dropWhile (isDue t) = agenda := by
    intro agenda hlater
    cases agenda with
    | nil => exact ⟨rfl, rfl⟩
    | cons first agenda =>
      have hfirst : ¬ isDue t first = true :=
        Bool.eq_false_iff.mp (isDue_eq_false_iff.mpr (hlater first List.mem_cons_self))
      exact ⟨List.takeWhile_cons_of_neg hfirst, List.dropWhile_cons_of_neg hfirst⟩
  obtain ⟨htake, hdrop⟩ := hnone w.agenda h
  rw [advance_eq, htake, hdrop]
  rfl

/-- In an agenda in order nothing is due after the first thing that is not. -/
theorem isDue_eq_false_of_le {t : Instant} {entry other : Instant × Happening}
    (h : isDue t entry = false) (hle : entry.1 ≤ other.1) : isDue t other = false :=
  isDue_eq_false_iff.mpr (Nat.lt_of_lt_of_le (isDue_eq_false_iff.mp h) hle)

theorem takeWhile_isDue {agenda : List (Instant × Happening)}
    (h : agenda.Pairwise fun a b => a.1 ≤ b.1) (t : Instant) :
    agenda.takeWhile (isDue t) = agenda.filter (isDue t) := by
  induction agenda with
  | nil => rfl
  | cons entry agenda ih =>
    obtain ⟨hentry, hrest⟩ := List.pairwise_cons.mp h
    rw [List.takeWhile_cons, List.filter_cons, ih hrest]
    cases hdue : isDue t entry with
    | true => rfl
    | false =>
      refine (List.filter_eq_nil_iff.mpr fun other ho => ?_).symm
      exact Bool.eq_false_iff.mp (isDue_eq_false_of_le hdue (hentry other ho))

theorem dropWhile_isDue {agenda : List (Instant × Happening)}
    (h : agenda.Pairwise fun a b => a.1 ≤ b.1) (t : Instant) :
    agenda.dropWhile (isDue t) = agenda.filter fun entry => !isDue t entry := by
  induction agenda with
  | nil => rfl
  | cons entry agenda ih =>
    obtain ⟨hentry, hrest⟩ := List.pairwise_cons.mp h
    rw [List.dropWhile_cons, List.filter_cons, ih hrest]
    cases hdue : isDue t entry with
    | true => rfl
    | false =>
      refine congrArg (entry :: ·) (List.filter_eq_self.mpr fun other ho => ?_).symm
      exact congrArg not (isDue_eq_false_of_le hdue (hentry other ho))

structure Sane (w : System) : Prop where
  byPid : w.table.ByPid
  upcoming : w.Upcoming
  linked : w.Linked

theorem Sane.advance (h : w.Sane) (t : Instant) : (w.advance t).Sane where
  byPid := h.byPid.becomes (ages_advance w t).table
  upcoming := h.upcoming.advance t
  linked := ongoing_linked.advance w t h.linked

theorem Sane.deliver (h : w.Sane) (serial : Serial) (signal : Signal) :
    (w.deliver serial signal).Sane where
  byPid := h.byPid.becomes (ages_deliver w serial signal).table
  upcoming := (proceeds_deliver w serial signal).upcoming h.upcoming
  linked := h.linked.retains (retains_deliver (lasting_shells _) h.linked.present serial signal)

theorem Sane.record (h : w.Sane) (attempt : Attempt) : (w.record attempt).Sane :=
  ⟨h.byPid, h.upcoming, ⟨h.linked.present, h.linked.coming⟩⟩

theorem Sane.emptyPipe (h : w.Sane) (c : ChildId) : (w.emptyPipe c).Sane where
  byPid := h.byPid
  upcoming := (proceeds_emptyPipe w c).upcoming h.upcoming
  linked := ongoing_linked.emptyPipe w c h.linked

theorem Sane.send (h : w.Sane) (x : Sending) : (w.send x).Sane where
  byPid := by
    cases x with
    | group pgid signal => exact h.byPid.becomes (ages_signalGroup w pgid signal).table
    | single p signal => exact h.byPid.becomes (ages_signalProcess w p signal).table
  upcoming := by
    cases x with
    | group pgid signal => exact (proceeds_signalGroup w pgid signal).upcoming h.upcoming
    | single p signal => exact (proceeds_signalProcess w p signal).upcoming h.upcoming
  linked := h.linked.retains (retains_send (lasting_shells _) h.linked.present x)

end System

end Overseer.World
