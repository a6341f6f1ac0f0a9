import TreeRules.Capture
import Mathlib.Data.List.Induction
import Mathlib.Tactic.Common

/-! Captures as the outcome of single stores. Whatever the order of the holes, what a hole is bound
to in the end comes from the stores into this hole alone. -/
namespace TreeRules

/-- One thing that a match stores. -/
structure Store where
  /-- Whether a repeated item stores it. -/
  accumulate : Bool
  hole : Hole
  capture : Capture

namespace Capture

def isData : Capture → Bool
  | data _ => true
  | _ => false

/-- What a hole that was bound to `old` is bound to once a capture is stored. -/
def after (accumulate : Bool) (old : Option Capture) : Capture → Capture
  | node n =>
    if accumulate || (old.bind nodes?).isSome then nodes (old.elim [] kept ++ [n]) else node n
  | nodes ns =>
    if accumulate || (old.bind nodes?).isSome then nodes (old.elim [] kept ++ ns) else nodes ns
  | data text => data text

lemma isData_after (accumulate : Bool) (old : Option Capture) (k : Capture) :
    (k.after accumulate old).isData = k.isData := by
  cases k with
  | data text => rfl
  | node n | nodes ns =>
    rw [after]
    split_ifs <;> rfl

lemma nodes?_of_not_isData {k : Capture} (h : k.isData = false) : k.nodes? = some k.kept := by
  cases k with
  | data text => cases h
  | node n | nodes ns => rfl

/-- A store of nodes puts them behind those that are there; data is no node and is dropped. -/
lemma kept_after (accumulate : Bool) (old : Option Capture) {k : Capture}
    (h : k.isData = false) : (k.after accumulate old).kept = old.elim [] kept ++ k.kept := by
  have hbare : (old.bind nodes?).isSome = false → old.elim [] kept = [] := by
    rcases old with _ | (n | ns | text) <;> simp [nodes?, kept]
  cases k with
  | data text => cases h
  | node n | nodes ns =>
    rw [after]
    split_ifs with hc
    · rfl
    · simp only [Bool.or_eq_true, not_or, Bool.not_eq_true] at hc
      rw [hbare hc.2]
      rfl

end Capture

lemma eraseDups_append_singleton {α : Type} [DecidableEq α] (xs : List α) (a : α) :
    (xs ++ [a]).eraseDups = if a ∈ xs then xs.eraseDups else xs.eraseDups ++ [a] := by
  rw [List.eraseDups_append]
  by_cases ha : a ∈ xs <;> simp [ha, List.removeAll, List.eraseDups_cons]

lemma nodup_eraseDups {α : Type} [DecidableEq α] (xs : List α) : xs.eraseDups.Nodup := by
  induction xs using List.reverseRecOn with
  | nil => exact .nil
  | append_singleton xs x ih =>
    rw [eraseDups_append_singleton]
    split_ifs with hx
    · exact ih
    · refine List.nodup_append.mpr ⟨ih,by simp,fun a ha b hb hab => ?_⟩
      rw [List.mem_singleton.mp hb] at hab
      exact hx (List.mem_eraseDups.mp (hab ▸ ha))

namespace Captures

/-- Stores one thing. -/
def store (c : Captures) (s : Store) : Captures :=
  match s.capture with
  | .node n => if s.accumulate then c.pushNode s.hole n else c.bindNode s.hole n
  | .nodes ns => if s.accumulate then c.extendNodes s.hole ns else c.bindNodes s.hole ns
  | .data text => c.bindData s.hole text

/-- Stores one thing after the other. -/
def replay (c : Captures) (steps : List Store) : Captures := steps.foldl store c

@[simp] lemma replay_nil (c : Captures) : c.replay [] = c := rfl

@[simp] lemma replay_cons (c : Captures) (s : Store) (steps : List Store) :
    c.replay (s :: steps) = (c.store s).replay steps := rfl

lemma replay_append (c : Captures) (steps more : List Store) :
    c.replay (steps ++ more) = (c.replay steps).replay more := List.foldl_append

lemma store_eq_set (c : Captures) (s : Store) :
    c.store s = c.set s.hole (s.capture.after s.accumulate (c.get? s.hole)) := by
  obtain ⟨accumulate,hole,capture⟩ := s
  cases capture with
  | data text => rfl
  | node n =>
    by_cases ha : accumulate = true
    · simp [store, ha, pushNode, extendNodes, Capture.after]
    · by_cases hh : ((c.get? hole).bind Capture.nodes?).isSome = true
      · simp [store, ha, bindNode, holdsNodes, nodes?, pushNode, extendNodes, Capture.after, hh]
      · simp [store, ha, bindNode, holdsNodes, nodes?, Capture.after, hh]
  | nodes ns =>
    by_cases ha : accumulate = true
    · simp [store, ha, extendNodes, Capture.after]
    · by_cases hh : ((c.get? hole).bind Capture.nodes?).isSome = true
      · simp [store, ha, bindNodes, holdsNodes, nodes?, extendNodes, Capture.after, hh]
      · simp [store, ha, bindNodes, holdsNodes, nodes?, Capture.after, hh]

lemma get?_store (c : Captures) (s : Store) (hole : Hole) :
    (c.store s).get? hole =
      if hole = s.hole then some (s.capture.after s.accumulate (c.get? hole))
      else c.get? hole := by
  rw [store_eq_set, get?_set]
  split_ifs with h
  · rw [h]
  · rfl

lemma isSome_get? (c : Captures) (hole : Hole) : (c.get? hole).isSome = true ↔ hole ∈ c.holes := by
  simp [get?, holes]

lemma holes_set (c : Captures) (hole : Hole) (k : Capture) :
    (c.set hole k).holes = if hole ∈ c.holes then c.holes else c.holes ++ [hole] := by
  rw [set]
  simp only [isSome_get?]
  split_ifs with h
  · simp only [holes, List.map_map]
    refine List.map_congr_left fun b _ => ?_
    by_cases hb : b.1 = hole <;> simp [hb]
  · simp [holes]

/-- A hole is listed from its first store on. -/
lemma holes_store (c : Captures) (s : Store) :
    (c.store s).holes = if s.hole ∈ c.holes then c.holes else c.holes ++ [s.hole] := by
  rw [store_eq_set, holes_set]

/-- Holes are listed in the order of their first stores. -/
theorem holes_replay (steps : List Store) :
    (empty.replay steps).holes = (steps.map Store.hole).eraseDups := by
  induction steps using List.reverseRecOn with
  | nil => rfl
  | append_singleton steps s ih =>
    rw [replay_append, replay_cons, replay_nil, holes_store, ih, List.map_append,
      List.map_singleton, eraseDups_append_singleton]
    simp only [List.mem_eraseDups]

section OneHole

variable (hole : Hole)

/-- The stores into one hole. -/
def storesTo (steps : List Store) : List Store := steps.filter (·.hole == hole)

/-- What a hole is bound to comes from the stores into it. -/
lemma get?_replay (c : Captures) (steps : List Store) :
    (c.replay steps).get? hole =
      (storesTo hole steps).foldl (fun old s => some (s.capture.after s.accumulate old))
        (c.get? hole) := by
  induction steps generalizing c with
  | nil => rfl
  | cons s steps ih =>
    rw [replay_cons, ih, get?_store]
    by_cases hs : hole = s.hole
    · simp [storesTo, hs]
    · simp [storesTo, hs, Ne.symm hs]

lemma isSome_get?_replay (steps : List Store) :
    ((empty.replay steps).get? hole).isSome = true ↔ ∃ s ∈ steps, s.hole = hole := by
  rw [isSome_get?, holes_replay, List.mem_eraseDups, List.mem_map]

/-- Storing nodes only gathers them all, in the order of the stores. -/
lemma nodes?_foldl_after {steps : List Store} (hn : ∀ s ∈ steps, s.capture.isData = false)
    {old : Option Capture} (hold : ∀ k ∈ old, k.isData = false) :
    (steps.foldl (fun old s => some (s.capture.after s.accumulate old)) old).bind Capture.nodes? =
      if steps = [] then old.bind Capture.nodes?
      else some (old.elim [] Capture.kept ++ steps.flatMap (·.capture.kept)) := by
  induction steps generalizing old with
  | nil => rfl
  | cons s steps ih =>
    have hs := hn s List.mem_cons_self
    have hd : (s.capture.after s.accumulate old).isData = false := by rw [Capture.isData_after, hs]
    rw [List.foldl_cons, ih (fun s' h => hn s' (List.mem_cons_of_mem _ h)) (by simpa using hd)]
    have hk := Capture.kept_after s.accumulate old hs
    cases steps with
    | nil => simp [Capture.nodes?_of_not_isData hd, hk]
    | cons s' steps => simp [hk, List.append_assoc]

/-- A hole into which only nodes are stored is bound to all of them, in the order of the stores. -/
theorem nodes?_replay {steps : List Store} (hb : ∃ s ∈ steps, s.hole = hole)
    (hn : ∀ s ∈ steps, s.hole = hole → s.capture.isData = false) :
    (empty.replay steps).nodes? hole =
      some ((storesTo hole steps).flatMap (·.capture.kept)) := by
  have hne : storesTo hole steps ≠ [] := by
    obtain ⟨s,hs,hh⟩ := hb
    exact List.ne_nil_of_mem (List.mem_filter.mpr ⟨hs,by simp [hh]⟩)
  rw [nodes?, get?_replay, nodes?_foldl_after _ (by simp [empty, get?])]
  · simp [hne, empty, get?]
  · intro s hs
    obtain ⟨hm,hh⟩ := List.mem_filter.mp hs
    exact hn s hm (beq_iff_eq.mp hh)

/-- A hole into which a text is stored and nothing else is bound to the text. -/
theorem get?_replay_data {steps : List Store} {accumulate : Bool} {text : String}
    (h : storesTo hole steps = [⟨accumulate,hole,.data text⟩]) :
    (empty.replay steps).get? hole = some (.data text) := by
  rw [get?_replay, h]
  rfl

end OneHole

end Captures
end TreeRules
