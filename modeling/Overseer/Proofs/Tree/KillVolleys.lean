import Overseer.Proofs.World.Population

/-!
# Who has been killed

A process that is killed dies or is marked as killed, and nothing takes the mark from it. So after a
volley of kills, whoever it was aimed at and is alive has been killed (`System.struck_of_volley`).
-/

namespace Overseer

open World

namespace World

def Doomed (serial : Nat) (x : Process) : Prop :=
  x.serial = serial → x.zombie = true ∨ x.killSeen = true

theorem lasting_doomed (serial : Nat) : Lasting (Doomed serial) fun _ _ => True where
  bury _ _ _ := .inl rfl
  term _ h := h
  kill _ _ _ := .inr rfl
  death _ _ := trivial

namespace System

def struck (w : System) (p : ProcessRef) : Bool := (w.table.deref? p.serial).any (·.killSeen)

section

variable {w : System} {p : ProcessRef} {serial : Serial}

theorem doomed_of_deref?_eq_none (h : w.table.deref? serial = none) :
    ∀ x ∈ w.table, Doomed serial x := fun x hx hserial =>
  absurd (beq_iff_eq.mpr hserial) (List.find?_eq_none.mp h x hx)

theorem doomed_deliver (hs : w.Sound) (serial : Serial) :
    ∀ x ∈ (w.deliver serial .kill).table, Doomed serial x := by
  unfold deliver
  cases hd : w.table.deref? serial with
  | none => exact doomed_of_deref?_eq_none hd
  | some y =>
    have hy : y ∈ w.table := List.mem_of_find?_eq_some hd
    have hserial : y.serial = serial := by
      simpa using List.find?_some (p := fun x : Process => x.serial == serial) hd
    dsimp only
    split
    next hover =>
      intro x hx hx'
      obtain rfl := hs.eq_of_serial hx hy (hx'.trans hserial.symm)
      exact Bool.or_eq_true_iff.mp hover
    next =>
      let marked : System :=
        { w with table := w.table.update serial fun x => { x with killSeen := true } }
      have hmarked : ∀ x ∈ marked.table, Doomed serial x := by
        intro x hx hx'
        obtain ⟨z, -, rfl⟩ := List.mem_map.mp hx
        dsimp only at hx' ⊢
        split
        · exact .inr rfl
        next hne =>
          rw [if_neg hne] at hx'
          exact absurd hx' hne
      cases y.onKill with
      | none => exact hmarked
      | some delay =>
        have hmeets : (Happening.death serial y.child (some .kill)).Meets (Doomed serial)
            fun _ _ => True := trivial
        exact (retains_settleOrPlan (lasting_doomed serial) marked delay hmeets).present hmarked

theorem doomed_send (hs : w.Sound) (hkill : p.obstacles.kill = none) :
    ∀ x ∈ (w.send (.single p .kill)).table, Doomed p.serial x := by
  have hrecord : (w.record (.single p.pid .kill)).Sound := hs
  have hclear : obstacleTo p .kill = none := hkill
  unfold send signalProcess
  dsimp only
  rw [hclear]
  dsimp only
  split
  · exact doomed_deliver hrecord p.serial
  next hgone =>
    have hnone : w.table.deref? p.serial = none := by
      cases hd : w.table.deref? p.serial with
      | none => rfl
      | some x => exact absurd (Option.isSome_iff_exists.mpr ⟨x, hd⟩) hgone
    exact doomed_of_deref?_eq_none hnone

theorem doomed_sendAll {xs : List Sending} (hs : w.Sound) (hkill : p.obstacles.kill = none)
    (hp : .single p .kill ∈ xs) : ∀ x ∈ (w.sendAll xs).table, Doomed p.serial x := by
  obtain ⟨before, after, rfl⟩ := List.append_of_mem hp
  rw [sendAll_append]
  have hsound : (w.sendAll before).Sound := (evolves_sendAll w before).sound hs
  have hstruck := doomed_send hsound hkill
  -- what comes after the kill does not undo it
  have hkept : ∀ (ys : List Sending) (u : System), (∀ x ∈ u.table, Doomed p.serial x) →
      ∀ x ∈ (u.sendAll ys).table, Doomed p.serial x := by
    intro ys
    induction ys with
    | nil => exact fun u hu => hu
    | cons y ys ih =>
      exact fun u hu => ih _ ((retains_send (lasting_doomed p.serial) hu y).present hu)
  exact hkept after _ hstruck

theorem struck_of_doomed (h : ∀ x ∈ w.table, Doomed p.serial x) (ha : w.alive p = true) :
    w.struck p = true := by
  obtain ⟨x, hx, halive⟩ := (Option.any_eq_true _ _).mp ha
  have hserial : x.serial = p.serial := by
    simpa using List.find?_some (p := fun x : Process => x.serial == p.serial) hx
  refine (Option.any_eq_true _ _).mpr ⟨x, hx, ?_⟩
  rcases h x (List.mem_of_find?_eq_some hx) hserial with hdead | hkilled
  · rw [hdead] at halive
    cases halive
  · exact hkilled

end

end System

end World

namespace Tree

/-- Whoever is alive after a volley of kills that was aimed at him has been killed. -/
theorem struck_of_volley {w : System} {windows : Bool} {pid : Int} {ps : List ProcessRef}
    {p : ProcessRef} (hs : w.Sound) (hp : p ∈ ps) (hkill : p.obstacles.kill = none)
    (ha : (w.sendAll (volley windows pid ps .kill)).alive p = true) :
    (w.sendAll (volley windows pid ps .kill)).struck p = true := by
  have haimed : .single p .kill ∈ volley windows pid ps .kill :=
    List.mem_append_right _ (List.mem_map.mpr ⟨p, hp, rfl⟩)
  exact System.struck_of_doomed (System.doomed_sendAll hs hkill haimed) ha

end Tree

end Overseer
