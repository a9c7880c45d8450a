import Overseer.Proofs.Session.SystemChanges

/-!
# Process tables

Whatever goes on in a system, its process table changes in a few ways only (`ProcessTable.Becomes`):
a process is put in, is marked as signalled, dies, or is taken out. So at every time there is one
process for each pid (`ProcessTable.ByPid`), and what a system tells of a pid it tells of that
process.
-/

namespace Overseer

namespace World

namespace ProcessTable

inductive Becomes (table : ProcessTable) : ProcessTable → Prop where
  | refl : Becomes table table
  | insert {now} (p : Process) : Becomes table now → Becomes table (now.insert p)
  | update {now} (serial : Serial) {change : Process → Process} :
      (∀ p, (change p).toProcessSpec = p.toProcessSpec) → Becomes table now →
      Becomes table (now.update serial change)
  | bury {now} (serial : Serial) : Becomes table now → Becomes table (now.bury serial)
  | remove {now} (serial : Serial) : Becomes table now → Becomes table (now.remove serial)

/-- The processes are in the order of their pids, and there is one for each pid. -/
def ByPid (table : ProcessTable) : Prop := table.Pairwise (·.pid < ·.pid)

variable {table now after : ProcessTable} {p x y : Process}

theorem Becomes.trans (h : Becomes table now) (k : Becomes now after) : Becomes table after := by
  induction k with
  | refl => exact h
  | insert p _ ih => exact ih.insert p
  | update serial hc _ ih => exact ih.update serial hc
  | bury serial _ ih => exact ih.bury serial
  | remove serial _ ih => exact ih.remove serial

theorem mem_insert (h : x ∈ table.insert p) : x = p ∨ x ∈ table := by
  induction table with
  | nil => exact .inl (List.mem_singleton.mp h)
  | cons q table ih =>
    unfold ProcessTable.insert at h
    split at h
    · exact List.mem_cons.mp h
    · split at h
      · exact (List.mem_cons.mp h).imp id (List.mem_cons_of_mem q)
      · rcases List.mem_cons.mp h with rfl | h
        · exact .inr List.mem_cons_self
        · exact (ih h).imp id (List.mem_cons_of_mem q)

theorem ByPid.insert (h : table.ByPid) (p : Process) : (table.insert p).ByPid := by
  induction table with
  | nil => exact List.pairwise_singleton _ p
  | cons q table ih =>
    obtain ⟨hq, hrest⟩ := List.pairwise_cons.mp h
    unfold ProcessTable.insert
    by_cases hlt : p.pid < q.pid
    · rw [if_pos hlt]
      refine List.pairwise_cons.mpr ⟨fun x hx => ?_, h⟩
      rcases List.mem_cons.mp hx with rfl | hx
      · exact hlt
      · exact Int.lt_trans hlt (hq x hx)
    · rw [if_neg hlt]
      by_cases heq : p.pid = q.pid
      · rw [if_pos heq]
        exact List.pairwise_cons.mpr ⟨fun x hx => heq ▸ hq x hx, hrest⟩
      · rw [if_neg heq]
        refine List.pairwise_cons.mpr ⟨fun x hx => ?_, ih hrest⟩
        rcases mem_insert hx with rfl | hx
        · omega
        · exact hq x hx

theorem ByPid.update (h : table.ByPid) (serial : Serial) {change : Process → Process}
    (hc : ∀ p, (change p).toProcessSpec = p.toProcessSpec) :
    (table.update serial change).ByPid := by
  have hpid : ∀ p : Process, (if p.serial = serial then change p else p).pid = p.pid := by
    intro p
    split
    · rw [hc]
    · rfl
  refine List.Pairwise.map _ (fun x y hxy => ?_) h
  rw [hpid, hpid]
  exact hxy

theorem ByPid.bury (h : table.ByPid) (serial : Serial) : (table.bury serial).ByPid := by
  refine List.Pairwise.filterMap _ (fun x y hxy u hu v hv => ?_) h
  have hpid : ∀ {p u : Process}, (if p.serial = serial ∧ !p.zombie then
      if p.leavesZombie then some { p with zombie := true } else none else some p) = some u →
      u.pid = p.pid := by
    intro p u hu
    split at hu
    · split at hu
      · exact Option.some.inj hu ▸ rfl
      · cases hu
    · exact Option.some.inj hu ▸ rfl
  rw [hpid hu, hpid hv]
  exact hxy

theorem ByPid.remove (h : table.ByPid) (serial : Serial) : (table.remove serial).ByPid :=
  h.filter _

theorem ByPid.becomes (h : table.ByPid) (hb : Becomes table now) : now.ByPid := by
  induction hb with
  | refl => exact h
  | insert p _ ih => exact ih.insert p
  | update serial hc _ ih => exact ih.update serial hc
  | bury serial _ ih => exact ih.bury serial
  | remove serial _ ih => exact ih.remove serial

theorem ByPid.eq_of_pid (h : table.ByPid) (hx : x ∈ table) (hy : y ∈ table)
    (hpid : x.pid = y.pid) : x = y := by
  induction table with
  | nil => cases hx
  | cons q table ih =>
    obtain ⟨hq, hrest⟩ := List.pairwise_cons.mp h
    rcases List.mem_cons.mp hx with rfl | hxs
    · rcases List.mem_cons.mp hy with rfl | hys
      · rfl
      · exact absurd hpid (Int.ne_of_lt (hq y hys))
    · rcases List.mem_cons.mp hy with rfl | hys
      · exact absurd hpid.symm (Int.ne_of_lt (hq x hxs))
      · exact ih hrest hxs hys

theorem find?_eq_some {pid : Int} (h : table.find? pid = some x) : x ∈ table ∧ x.pid = pid :=
  ⟨List.mem_of_find?_eq_some h,
    eq_of_beq (List.find?_some (p := fun x : Process => x.pid == pid) h)⟩

theorem ByPid.find? (h : table.ByPid) (hx : x ∈ table) : table.find? x.pid = some x := by
  cases hf : table.find? x.pid with
  | none => exact absurd (beq_self_eq_true x.pid) (List.find?_eq_none.mp hf x hx)
  | some y =>
    obtain ⟨hy, hpid⟩ := find?_eq_some hf
    rw [h.eq_of_pid hy hx hpid]

end ProcessTable

namespace System

/-- A system that has grown older: its table has changed, the platform has not. -/
structure Ages (a b : System) : Prop where
  table : a.table.Becomes b.table
  windows : b.windows = a.windows

section

variable {a b c : System}

theorem Ages.refl (w : System) : Ages w w := ⟨.refl, rfl⟩

theorem Ages.trans (h : Ages a b) (k : Ages b c) : Ages a c :=
  ⟨h.table.trans k.table, k.windows.trans h.windows⟩

theorem Ages.of_eq (htable : b.table = a.table) (hwindows : b.windows = a.windows) : Ages a b :=
  ⟨htable ▸ .refl, hwindows⟩

end

theorem ages_foldl {γ : Type} {f : System → γ → System} (h : ∀ w x, Ages w (f w x))
    (xs : List γ) (w : System) : Ages w (xs.foldl f w) := by
  induction xs generalizing w with
  | nil => exact .refl w
  | cons x xs ih => exact (h w x).trans (ih (f w x))

theorem ages_endChild (w : System) (c : ChildId) (code : Child → Int) :
    Ages w (w.endChild c code) := by
  refine .of_eq (table_endChild w c code) ?_
  unfold endChild
  split
  · rfl
  · split <;> rfl

theorem ages_die (w : System) (serial : Serial) (child : Option ChildId)
    (signal : Option Signal) : Ages w (w.die serial child signal) := by
  have hbury : Ages w { w with table := w.table.bury serial } := ⟨.bury serial .refl, rfl⟩
  cases child with
  | none => exact hbury
  | some c =>
    cases signal with
    | none => exact hbury
    | some signal => exact hbury.trans (ages_endChild _ c _)

theorem ages_apply (w : System) (h : Happening) : Ages w (w.apply h) := by
  cases h with
  | birth p => exact ⟨.insert p .refl, rfl⟩
  | death serial child signal => exact ages_die w serial child signal
  | program c event =>
    cases event with
    | exit code =>
      simp only [apply, runEvent, exitShell]
      split
      · exact .refl w
      next child _ =>
        split
        · exact .refl w
        · have hremove : Ages w { w with table := w.table.remove child.serial } :=
            ⟨.remove child.serial .refl, rfl⟩
          exact hremove.trans (ages_endChild _ c _)
    | _ => exact .of_eq rfl rfl

theorem ages_advance (w : System) (t : Instant) : Ages w (w.advance t) := by
  have hdue := ages_foldl
    (f := fun w (entry : Instant × Happening) => { w with now := entry.1 }.apply entry.2)
    (fun w entry => (Ages.of_eq rfl rfl : Ages w { w with now := entry.1 }).trans (ages_apply _ _))
    (w.agenda.takeWhile (isDue t)) { w with agenda := w.agenda.dropWhile (isDue t) }
  exact ⟨hdue.table, hdue.windows⟩

theorem ages_settleOrPlan (w : System) (delay : Nat) (h : Happening) :
    Ages w (w.settleOrPlan delay h) := by
  unfold settleOrPlan
  split
  · exact ages_apply w h
  · exact .of_eq rfl rfl

theorem ages_bear (w : System) (b : Birth) : Ages w (w.bear b) := by
  have hborn : Ages w ({ w with serials := w.serials + 1 }.settleOrPlan b.delay
      (.birth { b.spec with serial := w.serials })) :=
    (Ages.of_eq rfl rfl : Ages w { w with serials := w.serials + 1 }).trans
      (ages_settleOrPlan _ _ _)
  unfold bear
  cases b.lifetime with
  | none => exact hborn
  | some lifetime => exact hborn.trans (ages_settleOrPlan _ _ _)

theorem ages_deliver (w : System) (serial : Serial) (signal : Signal) :
    Ages w (w.deliver serial signal) := by
  have hmark : ∀ change : Process → Process, (∀ p, (change p).toProcessSpec = p.toProcessSpec) →
      Ages w { w with table := w.table.update serial change } := fun _ hc =>
    ⟨.update serial hc .refl, rfl⟩
  unfold deliver
  cases w.table.deref? serial with
  | none => exact .refl w
  | some x =>
    cases signal with
    | term =>
      dsimp only
      split
      · exact .refl w
      · cases x.onTerm with
        | none => exact hmark _ fun _ => rfl
        | some delay =>
          refine (hmark _ ?_).trans (ages_settleOrPlan _ _ _)
          exact fun _ => rfl
    | kill =>
      dsimp only
      split
      · exact .refl w
      · cases x.onKill with
        | none => exact hmark _ fun _ => rfl
        | some delay =>
          refine (hmark _ ?_).trans (ages_settleOrPlan _ _ _)
          exact fun _ => rfl

theorem ages_signalProcess (w : System) (p : ProcessRef) (signal : Signal) :
    Ages w (w.signalProcess p signal).1 := by
  have hrecord : Ages w (w.record (.single p.pid signal)) := .of_eq rfl rfl
  unfold signalProcess
  dsimp only
  split
  · exact hrecord
  · split
    · exact hrecord.trans (ages_deliver _ _ _)
    · exact hrecord

theorem ages_signalGroup (w : System) (pgid : Int) (signal : Signal) :
    Ages w (w.signalGroup pgid signal).1 := by
  have hrecord : Ages w (w.record (.group pgid signal)) := .of_eq rfl rfl
  unfold signalGroup
  dsimp only
  split
  · exact hrecord
  · exact hrecord
  · exact hrecord.trans (ages_foldl (fun w (x : Process) => ages_deliver w x.serial signal) _ _)

theorem ages_startProgram (w : System) (p : Program) : Ages w (w.startProgram p).1 := by
  rw [startProgram_eq]
  have hshell : Ages w (w.withShell p) := ⟨.insert _ .refl, rfl⟩
  refine (hshell.trans (ages_foldl ages_bear p.family _)).trans ?_
  exact ages_foldl (fun u (entry : Nat × ProgramEvent) => ages_settleOrPlan u entry.1 _) p.events _

theorem ages_spawn (w : System) (launch : Launch) : Ages w (w.spawn launch).1 := by
  unfold spawn
  rcases w.programs with _ | ⟨next, rest⟩
  · exact .of_eq rfl rfl
  · cases next with
    | refused reason => exact .of_eq rfl rfl
    | program p =>
      have hrecord : Ages w
          { w with programs := rest, spawned := w.spawned.push ⟨launch, some p.shell.pid⟩ } :=
        .of_eq rfl rfl
      exact hrecord.trans (ages_startProgram _ p)

theorem ongoing_ages : Ongoing Ages where
  refl := .refl
  trans := .trans
  advance := ages_advance
  emptyPipe _ _ := .of_eq rfl rfl
  signalProcess := ages_signalProcess
  signalGroup := ages_signalGroup
  spawn := ages_spawn

end System

end World

namespace Session

open World Timeline

theorem byPid_later {s : Session} {w : System} {others : List Birth}
    {t : Timeline Session Activity Result}
    (h : Later machinery { state := s.afresh w others } t) :
    t.state.fleet.scene.system.table.ByPid := by
  have hempty : ProcessTable.ByPid [] := List.Pairwise.nil
  have hborn := System.ages_foldl System.ages_bear others
    { w with table := [], agenda := [], children := #[], endings := #[] }
  exact hempty.becomes (hborn.trans (System.ongoing_ages.later h)).table

end Session

end Overseer
