import Mathlib.Algebra.BigOperators.Ring.Finset
import Mathlib.Algebra.Order.BigOperators.Group.Finset
import Mathlib.Data.Sym.Sym2
import Mathlib.Tactic.Linarith
import Mathlib.Tactic.Ring

/-!
Flows of at most one unit between two adjacent vertices of an undirected graph, as sets of ordered pairs. A unit that
is sent against a pair of the flow cancels it.
-/
namespace Osrm.UnitFlows
open List
variable {V : Type*} [DecidableEq V]

def send (flow : Finset (V × V)) (u v : V) : Finset (V × V) :=
  if (v,u) ∈ flow then flow.erase (v,u) else insert (u,v) flow
def sendAlong (flow : Finset (V × V)) : List V → Finset (V × V)
  | u :: v :: path => sendAlong (send flow u v) (v :: path)
  | _ => flow
def inside (side : Finset V) (u : V) : ℤ := if u ∈ side then 1 else 0
def net (side : Finset V) (flow : Finset (V × V)) : ℤ := ∑ p ∈ flow, (inside side p.1 - inside side p.2)
def OneWay (flow : Finset (V × V)) : Prop := ∀ u v, (u,v) ∈ flow → (v,u) ∉ flow

variable {flow pairs : Finset (V × V)} {side : Finset V} {u v : V} {path : List V}

@[simp] theorem net_empty (side : Finset V) : net side ∅ = 0 := Finset.sum_empty

private theorem net_send (side : Finset V) (capacity : (u,v) ∉ flow) :
    net side (send flow u v) = net side flow + (inside side u - inside side v) := by
  rw [send]
  split_ifs with against
  · have total := Finset.add_sum_erase flow (fun p => inside side p.1 - inside side p.2) against
    rw [net,net,← total]
    ring
  · rw [net,net,Finset.sum_insert capacity]
    ring

private theorem mem_send {p : V × V} (member : p ∈ send flow u v) : p ∈ flow ∨ p = (u,v) := by
  rw [send] at member
  split_ifs at member with against
  · exact .inl (Finset.mem_of_mem_erase member)
  · exact (Finset.mem_insert.mp member).symm

private theorem send_subset (sub : flow ⊆ pairs) (step : (u,v) ∈ pairs) : send flow u v ⊆ pairs := by
  intro p member
  cases mem_send member with
  | inl old => exact sub old
  | inr new => exact new ▸ step

private theorem OneWay.send (oneWay : OneWay flow) (ne : u ≠ v) : OneWay (send flow u v) := by
  intro a b member against
  rw [UnitFlows.send] at member against
  split_ifs at member against with back
  · exact oneWay a b (Finset.mem_of_mem_erase member) (Finset.mem_of_mem_erase against)
  · cases Finset.mem_insert.mp member with
    | inl new =>
      obtain ⟨rfl,rfl⟩ := Prod.mk.inj new
      cases Finset.mem_insert.mp against with
      | inl same => exact ne (congrArg Prod.snd same)
      | inr old => exact back old
    | inr old =>
      cases Finset.mem_insert.mp against with
      | inl new =>
        obtain ⟨rfl,rfl⟩ := Prod.mk.inj new
        exact back old
      | inr old' => exact oneWay a b old old'

private theorem chain_send (nodup : (u :: v :: path).Nodup) (chain : (v :: path).IsChain fun a b => (a,b) ∉ flow) :
    (v :: path).IsChain fun a b => (a,b) ∉ send flow u v := by
  have fresh : u ∉ v :: path := (nodup_cons.mp nodup).1
  refine chain.imp_of_mem_imp fun a b at_a _ capacity member => ?_
  cases mem_send member with
  | inl old => exact capacity old
  | inr new => exact fresh ((Prod.mk.inj new).1 ▸ at_a)

private theorem net_sendAlong (side : Finset V) (u : V) (path : List V) (nodup : (u :: path).Nodup)
    (chain : (u :: path).IsChain fun a b => (a,b) ∉ flow) :
    net side (sendAlong flow (u :: path)) = net side flow +
      (inside side u - inside side ((u :: path).getLast (cons_ne_nil u path))) := by
  induction path generalizing flow u with
  | nil => simp [sendAlong]
  | cons v path ih =>
    obtain ⟨capacity,rest⟩ := isChain_cons_cons.mp chain
    rw [sendAlong,ih v (nodup_cons.mp nodup).2 (chain_send nodup rest),net_send side capacity,getLast_cons_cons]
    ring

private theorem sendAlong_subset (sub : flow ⊆ pairs) (u : V) (path : List V) (steps : (u :: path).IsChain fun a b => (a,b) ∈ pairs) :
    sendAlong flow (u :: path) ⊆ pairs := by
  induction path generalizing flow u with
  | nil => exact sub
  | cons v path ih =>
    obtain ⟨step,rest⟩ := isChain_cons_cons.mp steps
    exact ih (send_subset sub step) v rest

private theorem OneWay.sendAlong (oneWay : OneWay flow) (u : V) (path : List V) (nodup : (u :: path).Nodup) :
    OneWay (sendAlong flow (u :: path)) := by
  induction path generalizing flow u with
  | nil => exact oneWay
  | cons v path ih =>
    have ne : u ≠ v := fun same => (nodup_cons.mp nodup).1 (same ▸ mem_cons_self)
    exact ih (oneWay.send ne) v (nodup_cons.mp nodup).2

def crossing (pairs : Finset (V × V)) (side : Finset V) : Finset (V × V) := pairs.filter fun p => p.1 ∈ side ∧ p.2 ∉ side
def cut (pairs : Finset (V × V)) (side : Finset V) : Finset (Sym2 V) := (crossing pairs side).image fun p => s(p.1,p.2)

theorem mem_crossing {p : V × V} : p ∈ crossing pairs side ↔ p ∈ pairs ∧ p.1 ∈ side ∧ p.2 ∉ side := Finset.mem_filter

private theorem card_cut (pairs : Finset (V × V)) (side : Finset V) : (cut pairs side).card = (crossing pairs side).card := by
  refine Finset.card_image_of_injOn fun p at_p q at_q same => ?_
  obtain ⟨-,near,-⟩ := mem_crossing.mp at_p
  obtain ⟨-,-,far⟩ := mem_crossing.mp at_q
  cases Sym2.eq_iff.mp same with
  | inl equal => exact Prod.ext equal.1 equal.2
  | inr turned => exact absurd (turned.1 ▸ near) far

private theorem net_le_cut (sub : flow ⊆ pairs) (side : Finset V) : net side flow ≤ (cut pairs side).card := by
  have each : ∀ p ∈ flow, inside side p.1 - inside side p.2 ≤ if p.1 ∈ side ∧ p.2 ∉ side then 1 else 0 := by
    intro p _
    rw [inside,inside]
    by_cases near : p.1 ∈ side <;> by_cases far : p.2 ∈ side <;> simp [near,far]
  calc net side flow ≤ ∑ p ∈ flow, if p.1 ∈ side ∧ p.2 ∉ side then 1 else 0 := Finset.sum_le_sum each
    _ = (crossing flow side).card := Finset.sum_boole ..
    _ ≤ (crossing pairs side).card := by exact_mod_cast Finset.card_le_card (Finset.filter_subset_filter _ sub)
    _ = (cut pairs side).card := by rw [card_cut]

private theorem net_eq_cut (sub : flow ⊆ pairs) (oneWay : OneWay flow) (symmetric : ∀ u v, (u,v) ∈ pairs → (v,u) ∈ pairs)
    (saturated : crossing pairs side ⊆ flow) : net side flow = (cut pairs side).card := by
  have each : ∀ p ∈ flow, inside side p.1 - inside side p.2 = if p.1 ∈ side ∧ p.2 ∉ side then 1 else 0 := by
    intro p member
    rw [inside,inside]
    by_cases near : p.1 ∈ side
    · by_cases far : p.2 ∈ side <;> simp [near,far]
    · by_cases far : p.2 ∈ side
      · -- a unit that comes in goes against a pair that is full
        have back := saturated (mem_crossing.mpr ⟨symmetric p.1 p.2 (sub member),far,near⟩)
        exact absurd back (oneWay p.1 p.2 member)
      · simp [near,far]
  have full : crossing flow side = crossing pairs side := by
    refine Finset.Subset.antisymm (Finset.filter_subset_filter _ sub) fun p member => ?_
    exact mem_crossing.mpr ⟨saturated member,(mem_crossing.mp member).2⟩
  calc net side flow = ∑ p ∈ flow, if p.1 ∈ side ∧ p.2 ∉ side then 1 else 0 := Finset.sum_congr rfl each
    _ = (crossing flow side).card := Finset.sum_boole ..
    _ = (cut pairs side).card := by rw [full,card_cut]

variable {sources sinks : Finset V} {value : ℕ}

def Separates (sources sinks side : Finset V) : Prop := sources ⊆ side ∧ ∀ t ∈ sinks, t ∉ side

structure Feasible (pairs : Finset (V × V)) (sources sinks : Finset V) (flow : Finset (V × V)) (value : ℕ) : Prop where
  sub : flow ⊆ pairs
  oneWay : OneWay flow
  leaves : ∀ side, Separates sources sinks side → net side flow = value

theorem feasible_empty (pairs : Finset (V × V)) (sources sinks : Finset V) : Feasible pairs sources sinks ∅ 0 :=
  ⟨Finset.empty_subset _,fun _ _ member => by simp at member,fun side _ => net_empty side⟩

theorem Feasible.le_cut (feasible : Feasible pairs sources sinks flow value) (separates : Separates sources sinks side) :
    value ≤ (cut pairs side).card := by
  have bound := net_le_cut feasible.sub side
  rw [feasible.leaves side separates] at bound
  exact_mod_cast bound

theorem Feasible.sendAlong (feasible : Feasible pairs sources sinks flow value) (source : u ∈ sources) (nodup : (u :: path).Nodup)
    (steps : (u :: path).IsChain fun a b => (a,b) ∈ pairs) (capacity : (u :: path).IsChain fun a b => (a,b) ∉ flow)
    (sink : (u :: path).getLast (cons_ne_nil u path) ∈ sinks) :
    Feasible pairs sources sinks (sendAlong flow (u :: path)) (value + 1) := by
  refine ⟨sendAlong_subset feasible.sub u path steps,feasible.oneWay.sendAlong u path nodup,fun side separates => ?_⟩
  rw [net_sendAlong side u path nodup capacity,feasible.leaves side separates,inside,inside,if_pos (separates.1 source),
    if_neg (separates.2 _ sink)]
  push_cast
  ring

theorem Feasible.minimum (feasible : Feasible pairs sources sinks flow value)
    (symmetric : ∀ u v, (u,v) ∈ pairs → (v,u) ∈ pairs) (separates : Separates sources sinks side)
    (saturated : crossing pairs side ⊆ flow) :
    value = (cut pairs side).card ∧ ∀ other, Separates sources sinks other → value ≤ (cut pairs other).card := by
  have full := net_eq_cut feasible.sub feasible.oneWay symmetric saturated
  rw [feasible.leaves side separates] at full
  exact ⟨by exact_mod_cast full,fun other separates' => feasible.le_cut separates'⟩

end Osrm.UnitFlows
