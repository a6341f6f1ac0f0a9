import TreeRules.Proofs.Compile.Template

/-! Building that insists on its holes. It goes step by step with building, but breaks off where a
hole is read that is not bound, be it for the whole right side, for children or for data. If all
holes of a template are bound, it makes what building makes. -/
namespace TreeRules

namespace Strict

open Builder (Id Source)

/-- What a hole is bound to. -/
def bound (c : Captures) (hole : Hole) : Except Hole Capture :=
  match c.get? hole with
  | none => .error hole
  | some capture => .ok capture

/-- The data of a built node. -/
def data (c : Captures) : Option Datum → Except Hole (Option String)
  | none => .ok none
  | some (.literal text) => .ok (some text)
  | some (.hole hole) => do
    let capture ← bound c hole
    return capture.data?

/-- The nodes that a source gives; `refers` runs the builders referred to. -/
def nodes (c : Captures) (refers : Id → Except Hole (Option Tree)) :
    Source → Except Hole (Option (List Tree))
  | .hole hole => do
    let capture ← bound c hole
    return capture.nodes?
  | .builder id => do
    let made ← refers id
    return made.map ([·])
  | .null => .ok (some [])

/-- The nodes of sources, up to the first that fails. -/
def sourceNodes (c : Captures) (refers : Id → Except Hole (Option Tree)) :
    List Source → Except Hole (Option (List Tree))
  | [] => .ok (some [])
  | s :: rest => do
    match ← nodes c refers s with
    | none => return none
    | some first =>
      let others ← sourceNodes c refers rest
      return others.map (first ++ ·)

/-- The node that a builder makes. -/
def make (symbols : SymbolTable) (factory : Factory) (c : Captures)
    (refers : Id → Except Hole (Option Tree)) (b : Builder) (fragment : Option Fragment) :
    Except Hole (Option Tree) :=
  match (symbols.name? b.type).bind factory.draft? with
  | none => .ok none
  | some draft => do
    let text ← data c b.data
    match Builder.fill draft text with
    | none => return none
    | some filled =>
      let children ← sourceNodes c refers b.children
      return children.bind (Builder.finish filled · fragment)

/-- The node that builder `id` of the table makes. -/
def build (symbols : SymbolTable) (factory : Factory) (c : Captures) :
    (table : List Builder) → Id → Option Fragment → Except Hole (Option Tree)
  | [], _, _ => .ok none
  | b :: older, id, fragment =>
    if b.id = id then
      make symbols factory c (fun id => build symbols factory c older id none) b fragment
    else build symbols factory c older id fragment

/-- What a right side puts in the place of matched nodes. -/
def replacement (symbols : SymbolTable) (table : List Builder) (factory : Factory) (c : Captures)
    (fragment : Option Fragment) : RightSide → Except Hole (Option Replacement)
  | .null => .ok (some .delete)
  | .hole hole => do
    match ← bound c hole with
    | .node n => return some (.node n)
    | .nodes ns => return some (.nodes ns)
    | .data _ => return none
  | .subtree id => do
    let made ← build symbols factory c table id fragment
    return made.map .node

section Steps

variable {c : Captures}

lemma bound_eq_ok {hole : Hole} {capture : Capture} (h : c.get? hole = some capture) :
    bound c hole = .ok capture := by
  rw [bound, h]

lemma data_eq_ok {d : Option Datum} (h : ∀ hole, d = some (.hole hole) →
    (c.get? hole).isSome = true) : data c d = .ok (Builder.dataOf c d) := by
  rcases d with _ | (hole | text)
  · rfl
  · obtain ⟨capture,hc⟩ := Option.isSome_iff_exists.mp (h hole rfl)
    rw [data, bound_eq_ok hc, Builder.dataOf, Captures.data?, hc]
    rfl
  · rfl

variable {refersM : Id → Except Hole (Option Tree)} {refers : Id → Option Tree}

lemma sourceNodes_cons {s : Source} {rest : List Source}
    (hs : nodes c refersM s = .ok (s.nodes? c refers))
    (hrest : sourceNodes c refersM rest = .ok (Builder.sourceNodes? c refers rest)) :
    sourceNodes c refersM (s :: rest) = .ok (Builder.sourceNodes? c refers (s :: rest)) := by
  rw [sourceNodes, Builder.sourceNodes?, hs]
  cases s.nodes? c refers with
  | none => rfl
  | some first =>
    change (sourceNodes c refersM rest >>=
      fun others => (pure (others.map (first ++ ·)) : Except Hole _)) = _
    rw [hrest]
    cases Builder.sourceNodes? c refers rest <;> rfl

lemma make_eq_ok {u : SymbolTable} {factory : Factory} {b : Builder}
    (hd : data c b.data = .ok (Builder.dataOf c b.data))
    (hs : sourceNodes c refersM b.children = .ok (Builder.sourceNodes? c refers b.children))
    (fragment : Option Fragment) :
    make u factory c refersM b fragment = .ok (b.make u factory c refers fragment) := by
  rw [make, Builder.make]
  cases u.name? b.type with
  | none => rfl
  | some type =>
    simp only [Option.bind_some, Option.bind_eq_bind]
    cases factory.draft? type with
    | none => rfl
    | some draft =>
      simp only [Option.bind_some, hd]
      change (match Builder.fill draft (Builder.dataOf c b.data) with
        | none => Except.ok none
        | some filled => sourceNodes c refersM b.children >>=
          fun children => Except.ok (children.bind (Builder.finish filled · fragment))) = _
      cases Builder.fill draft (Builder.dataOf c b.data) with
      | none => rfl
      | some filled =>
        simp only [Option.bind_some, hs]
        rfl

/-- A builder does the same however many newer ones are put before it. -/
lemma build_of_suffix {older table : List Builder} (hn : ByPlace Builder.id table.reverse)
    (hs : older <:+ table) {id : Id} (hid : id < older.length) (symbols : SymbolTable)
    (factory : Factory) (c : Captures) (fragment : Option Fragment) :
    build symbols factory c table id fragment = build symbols factory c older id fragment := by
  obtain ⟨newer,rfl⟩ := hs
  induction newer with
  | nil => rfl
  | cons b newer ih =>
    have hne : b.id ≠ id := hn.id_ne hid
    rw [List.cons_append, build, if_neg hne, ih (byPlace_reverse_cons.mp hn).1]

end Steps

end Strict

namespace Compilation

open Strict

variable {s t : Compilation} {f : Factory} {c : Captures} {u : SymbolTable}
  {table : List Builder}

/-- The builder of a node makes the node, once the sources inside give their nodes. -/
lemma strict_compileTemplate_subtree {span : Span} {type : String} {data : Option Datum}
    {children : List Template} (hs : s.Closed)
    (hdata : ∀ hole, data = some (.hole hole) → (c.get? hole).isSome = true)
    (hinside : ∀ table, (compileTemplates children s).2.BuildersIn u table →
      sourceNodes c (Strict.build u f c table · none) (compileTemplates children s).1.source =
        .ok (Builder.sourceNodes? c (Builder.build u f c table · none)
          (compileTemplates children s).1.source))
    (ht : (compileTemplate (.subtree span type data children) s).2.BuildersIn u table)
    (fragment : Option Fragment) :
    Strict.build u f c table (compileTemplates children s).2.builders.length fragment =
      .ok (Builder.build u f c table (compileTemplates children s).2.builders.length fragment) := by
  have hid : (compileTemplates children s).2.builders.length <
      (compileTemplate (.subtree span type data children) s).2.builders.length :=
    Nat.lt_succ_self _
  obtain ⟨hbelow,-,-⟩ := compileTemplates_closes children s hs
  have hu := (keepsTo_compileTemplate_subtree span type data children s).symbols.trans ht.symbols
  rw [Strict.build_of_suffix ht.ids ht.builders hid, Builder.build_of_suffix ht.ids ht.builders hid]
  change Strict.build u f c (_ :: (compileTemplates children s).2.builders) _ fragment =
    .ok (Builder.build u f c (_ :: (compileTemplates children s).2.builders) _ fragment)
  rw [Strict.build, Builder.build]
  refine (if_pos rfl).trans ((make_eq_ok ?_ ?_ fragment).trans (congrArg _ (if_pos rfl).symm))
  · exact data_eq_ok hdata
  · exact hinside _ ⟨hu,hbelow.builderIds,List.suffix_refl _⟩

mutual

/-- A source of a template whose holes are bound reads no hole that is not bound. -/
lemma strict_compileTemplate : ∀ (r : Template) (s : Compilation) (table : List Builder),
    s.Closed → (compileTemplate r s).2.BuildersIn u table →
      (∀ x ∈ r.holes, (c.get? x.1).isSome = true) →
      nodes c (Strict.build u f c table · none) (compileTemplate r s).1.source =
        .ok ((compileTemplate r s).1.source.nodes? c (Builder.build u f c table · none))
  | .null _, s, table, hs, ht, hb => rfl
  | .hole span h, s, table, hs, ht, hb => by
    obtain ⟨capture,hc⟩ := Option.isSome_iff_exists.mp (hb (h,span) (List.mem_singleton.mpr rfl))
    rw [compileTemplate, nodes, Builder.Source.nodes?, bound_eq_ok hc, hc]
    rfl
  | .subtree span type data children, s, table, hs, ht, hb => by
    rw [Template.holes] at hb
    have hmade := strict_compileTemplate_subtree (f := f) (c := c) hs
      (fun hole hd => hb (hole,span) (List.mem_append_left _ (by simp [hd, Template.dataHoles])))
      (fun table ht => strict_compileTemplates children s table hs ht fun x hx =>
        hb x (List.mem_append_right _ hx)) ht none
    change (Strict.build u f c table (compileTemplates children s).2.builders.length none >>=
      fun made => (pure (made.map ([·])) : Except Hole _)) = _
    rw [hmade]
    rfl

lemma strict_compileTemplates : ∀ (rs : List Template) (s : Compilation) (table : List Builder),
    s.Closed → (compileTemplates rs s).2.BuildersIn u table →
      (∀ x ∈ Template.listHoles rs, (c.get? x.1).isSome = true) →
      sourceNodes c (Strict.build u f c table · none) (compileTemplates rs s).1.source =
        .ok (Builder.sourceNodes? c (Builder.build u f c table · none)
          (compileTemplates rs s).1.source)
  | [], s, table, hs, ht, hb => rfl
  | r :: rs, s, table, hs, ht, hb => by
    rw [Template.listHoles] at hb
    obtain ⟨hfirst,-,-⟩ := compileTemplate_closes r s hs
    obtain ⟨-,hkeep,-⟩ := compileTemplates_closes rs _ hfirst
    exact sourceNodes_cons
      (strict_compileTemplate r s table hs (hkeep.buildersIn ht) fun x hx =>
        hb x (List.mem_append_left _ hx))
      (strict_compileTemplates rs _ table hfirst ht fun x hx => hb x (List.mem_append_right _ hx))

end

/-- If all holes that a right side reads are bound, building it reads no hole that is not bound. -/
theorem strict_compileResult (r : Template) (hs : s.Closed)
    (ht : (s.compileResult r).2.BuildersIn u table)
    (hb : ∀ x ∈ r.holes, (c.get? x.1).isSome = true) (fragment : Option Fragment) :
    replacement u table f c fragment (s.compileResult r).1 =
      .ok ((s.compileResult r).1.build u table f c fragment) := by
  cases r with
  | null span => rfl
  | hole span h =>
    obtain ⟨capture,hc⟩ := Option.isSome_iff_exists.mp (hb (h,span) (List.mem_singleton.mpr rfl))
    change replacement u table f c fragment (.hole h) =
      .ok ((RightSide.hole h).build u table f c fragment)
    rw [replacement, RightSide.build, bound_eq_ok hc, hc]
    cases capture <;> rfl
  | subtree span type data children =>
    change (compileTemplate (.subtree span type data children) s).2.BuildersIn u table at ht
    rw [Template.holes] at hb
    have hmade := strict_compileTemplate_subtree (f := f) (c := c) hs
      (fun hole hd => hb (hole,span) (List.mem_append_left _ (by simp [hd, Template.dataHoles])))
      (fun table ht => strict_compileTemplates children s table hs ht fun x hx =>
        hb x (List.mem_append_right _ hx)) ht fragment
    change (Strict.build u f c table (compileTemplates children s).2.builders.length fragment >>=
      fun made => (pure (made.map Replacement.node) : Except Hole _)) = _
    rw [hmade]
    rfl

end Compilation
end TreeRules
