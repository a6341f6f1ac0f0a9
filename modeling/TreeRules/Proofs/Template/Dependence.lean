import TreeRules.Proofs.Template.Meaning

/-! What a template makes depends on what its holes are bound to, and on nothing else of the
captures. On each of its holes it does depend: bind the hole to data and leave all others unbound,
and the data is seen in the node that asks for it, or else stands for children and nothing is
made. -/
namespace TreeRules

section Congruence

variable {f : Factory} {c c' : Captures}

lemma Datum.value?_congr {span : Span} {d : Option Datum}
    (h : ∀ x ∈ Template.dataHoles span d, c.get? x.1 = c'.get? x.1) :
    Datum.value? c d = Datum.value? c' d := by
  rcases d with _ | (hole | text)
  · rfl
  · have hget := h (hole,span) (List.mem_singleton_self _)
    rw [Datum.value?, Datum.value?, Captures.data?, Captures.data?, hget]
  · rfl

namespace Template

mutual

/-- Captures that agree on the holes of a template make the same of it. -/
lemma contribution?_congr : ∀ t : Template, (∀ x ∈ t.holes, c.get? x.1 = c'.get? x.1) →
    t.contribution? f c = t.contribution? f c'
  | .null _, _ => rfl
  | .hole span h, hget => by
    rw [contribution?, contribution?, hget (h,span) (List.mem_singleton_self _)]
  | .subtree span type data children, hget => by
    rw [holes, List.forall_mem_append] at hget
    rw [contribution?, contribution?, contributions?_congr children hget.2,
      Datum.value?_congr hget.1]

lemma contributions?_congr : ∀ ts : List Template, (∀ x ∈ listHoles ts, c.get? x.1 = c'.get? x.1) →
    contributions? f c ts = contributions? f c' ts
  | [], _ => rfl
  | t :: rest, hget => by
    rw [listHoles, List.forall_mem_append] at hget
    rw [contributions?, contributions?, contribution?_congr t hget.1,
      contributions?_congr rest hget.2]

end

lemma replacement?_congr {t : Template} (hget : ∀ x ∈ t.holes, c.get? x.1 = c'.get? x.1)
    (fragment : Option Fragment) : t.replacement? f c fragment = t.replacement? f c' fragment := by
  cases t with
  | null span => rfl
  | hole span h =>
    rw [replacement?, replacement?, hget (h,span) (List.mem_singleton_self _)]
  | subtree span type data children =>
    rw [holes, List.forall_mem_append] at hget
    rw [replacement?, replacement?, contributions?_congr children hget.2,
      Datum.value?_congr hget.1]

/-- Without a fragment, a right side puts there what it would add to the children of a node. -/
lemma map_toList_replacement? (t : Template) :
    (t.replacement? f c none).map Replacement.toList = t.contribution? f c := by
  cases t with
  | null span => rfl
  | hole span h =>
    rw [replacement?, contribution?]
    rcases c.get? h with _ | _ | _ | _ <;> rfl
  | subtree span type data children =>
    rw [replacement?, contribution?]
    cases contributions? f c children with
    | none => rfl
    | some inside =>
      simp only [Option.bind_eq_bind, Option.bind_some]
      cases f.node? type (Datum.value? c data) inside none <;> rfl

end Template

end Congruence

/-- The free factory refuses no node. -/
lemma Factory.node?_free (type : String) (data : Option String) (children : List Tree)
    (fragment : Option Fragment) :
    free.node? type data children fragment = some (.node type data children fragment) := by
  have hdata : data.all (free.allowsData type) = true := by cases data <;> rfl
  rw [node?, hdata]
  rfl

/-- One hole is bound, to data. -/
def Captures.onlyData (hole : Hole) : Captures := empty.bindData hole ""

lemma Captures.get?_onlyData (hole other : Hole) :
    (onlyData hole).get? other = if other = hole then some (.data "") else none :=
  empty.get?_set hole other (.data "")

namespace Template

/-- What is made of no captures, `made`, and what is made once `hole` is bound to data, `shown`: as
many nodes, if any, and other ones if `hole` is among the holes that are read. -/
def Shows (hole : Hole) (read : List (Hole × Span)) (made shown : Option (List Tree)) : Prop :=
  ∃ nodes, made = some nodes ∧ ∀ nodes', shown = some nodes' →
    nodes'.length = nodes.length ∧ (nodes' = nodes → ∀ x ∈ read, x.1 ≠ hole)

section Shows

variable {hole : Hole} {read read' : List (Hole × Span)}
  {made made' shown shown' : Option (List Tree)}

lemma shows_nothing : Shows hole [] (some []) (some []) := by
  refine ⟨[],rfl,fun nodes' h => ?_⟩
  cases h
  exact ⟨rfl,fun _ x hx => absurd hx List.not_mem_nil⟩

lemma shows_hole (span : Span) (h : Hole) :
    Shows hole [(h,span)] ((Template.hole span h).contribution? .free .empty)
      ((Template.hole span h).contribution? .free (.onlyData hole)) := by
  rw [contribution?, contribution?, Captures.get?_onlyData]
  split_ifs with hh
  · -- the hole itself: data cannot stand for children
    exact ⟨[],rfl,fun nodes' h => by cases h⟩
  · refine ⟨[],rfl,fun nodes' h => ?_⟩
    cases h
    refine ⟨rfl,fun _ x hx => ?_⟩
    rwa [List.mem_singleton.mp hx]

/-- Nodes are compared with nodes at the same place, since there are as many before them. -/
lemma Shows.append (h : Shows hole read made shown) (h' : Shows hole read' made' shown') :
    Shows hole (read ++ read') (do return (← made) ++ (← made'))
      (do return (← shown) ++ (← shown')) := by
  obtain ⟨first,rfl,hfirst⟩ := h
  obtain ⟨others,rfl,hothers⟩ := h'
  refine ⟨first ++ others,rfl,fun nodes' hnodes => ?_⟩
  obtain ⟨first',rfl,hrest⟩ := Option.bind_eq_some_iff.mp hnodes
  obtain ⟨others',rfl,hboth⟩ := Option.bind_eq_some_iff.mp hrest
  cases hboth
  obtain ⟨hlength,hfirst⟩ := hfirst first' rfl
  obtain ⟨hlength',hothers⟩ := hothers others' rfl
  refine ⟨by rw [List.length_append, List.length_append, hlength, hlength'],fun heq => ?_⟩
  obtain ⟨heq,heq'⟩ := List.append_inj heq hlength
  exact List.forall_mem_append.mpr ⟨hfirst heq,hothers heq'⟩

lemma ne_of_value?_eq {span : Span} {d : Option Datum}
    (h : Datum.value? (.onlyData hole) d = Datum.value? .empty d) :
    ∀ x ∈ dataHoles span d, x.1 ≠ hole := by
  intro x hx hhole
  rcases d with _ | (other | text)
  · cases hx
  · obtain rfl := List.mem_singleton.mp hx
    subst hhole
    rw [Datum.value?, Datum.value?, Captures.data?, Captures.get?_onlyData, if_pos rfl] at h
    cases h
  · cases hx

/-- A node shows what its data and its children show. -/
lemma Shows.node (h : Shows hole read made shown) (span : Span) (type : String)
    (data : Option Datum) :
    let node (c : Captures) (inside : List Tree) :=
      Factory.free.node? type (Datum.value? c data) inside none
    Shows hole (dataHoles span data ++ read) (do return [← node .empty (← made)])
      (do return [← node (.onlyData hole) (← shown)]) := by
  obtain ⟨inside,rfl,hinside⟩ := h
  simp only [Factory.node?_free]
  refine ⟨_,rfl,fun nodes' hnodes => ?_⟩
  obtain ⟨inside',rfl,hnode⟩ := Option.bind_eq_some_iff.mp hnodes
  cases hnode
  refine ⟨rfl,fun heq => ?_⟩
  injection List.singleton_inj.mp heq with _ hdata hchildren
  exact List.forall_mem_append.mpr ⟨ne_of_value?_eq hdata,(hinside inside' rfl).2 hchildren⟩

mutual

lemma shows_contribution? (hole : Hole) : ∀ t : Template,
    Shows hole t.holes (t.contribution? .free .empty) (t.contribution? .free (.onlyData hole))
  | .null _ => shows_nothing
  | .hole span h => shows_hole span h
  | .subtree span type data children => by
    rw [holes, contribution?, contribution?]
    exact (shows_contributions? hole children).node span type data

lemma shows_contributions? (hole : Hole) : ∀ ts : List Template,
    Shows hole (listHoles ts) (contributions? .free .empty ts)
      (contributions? .free (.onlyData hole) ts)
  | [] => shows_nothing
  | t :: rest => by
    rw [listHoles, contributions?, contributions?]
    exact (shows_contribution? hole t).append (shows_contributions? hole rest)

end

end Shows

/-- A template makes the same of all captures exactly if it has no holes. -/
theorem holes_eq_nil_iff (t : Template) : t.holes = [] ↔
    ∀ (f : Factory) (c c' : Captures) (fragment : Option Fragment),
      t.replacement? f c fragment = t.replacement? f c' fragment := by
  constructor
  · intro h f c c' fragment
    apply replacement?_congr
    rw [h]
    exact fun x hx => absurd hx List.not_mem_nil
  · intro h
    refine List.eq_nil_iff_forall_not_mem.mpr fun x hx => ?_
    obtain ⟨nodes,hmade,hshown⟩ := shows_contribution? x.1 t
    have hsame : t.contribution? .free (.onlyData x.1) = some nodes := by
      rw [← hmade, ← map_toList_replacement?, ← map_toList_replacement?, h]
    exact (hshown nodes hsame).2 rfl x hx rfl

end Template

end TreeRules
