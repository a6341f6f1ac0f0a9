import TreeRules.Builder.Run
import TreeRules.Proofs.Matcher.Indexed

/-! Running builders by number, as matchers are run. A builder does the same however many newer ones
are put before it, and on closed tables a run by numbers gives what the builders give. -/
namespace TreeRules

namespace Builder

lemma build_of_suffix {older table : List Builder} (hn : ByPlace Builder.id table.reverse)
    (hs : older <:+ table) {id : Id} (hid : id < older.length) (symbols : SymbolTable)
    (factory : Factory) (c : Captures) (fragment : Option Fragment) :
    build symbols factory c table id fragment = build symbols factory c older id fragment := by
  obtain ⟨newer,rfl⟩ := hs
  induction newer with
  | nil => rfl
  | cons b newer ih =>
    have hne : b.id ≠ id := hn.id_ne hid
    rw [List.cons_append, build, if_neg hne, ih (byPlace_reverse_cons.mp hn).1]

end Builder

namespace Indexed

open Builder (Id Source)

/-- The nodes that a source gives; `refers` runs the builders referred to. -/
def nodes (c : Captures) (refers : Id → Except Fault (Option Tree)) :
    Source → Except Fault (Option (List Tree))
  | .hole h =>
    match c.get? h with
    | none => .ok (some [])
    | some capture => .ok capture.nodes?
  | .builder id => do
    let made ← refers id
    return made.map ([·])
  | .null => .ok (some [])

/-- The nodes of sources, up to the first that fails. -/
def sourceNodes (c : Captures) (refers : Id → Except Fault (Option Tree)) :
    List Source → Except Fault (Option (List Tree))
  | [] => .ok (some [])
  | s :: rest => do
    match ← nodes c refers s with
    | none => return none
    | some first =>
      let others ← sourceNodes c refers rest
      return others.map (first ++ ·)

/-- The node that the builder with a number makes. At most `fuel` calls are made inside one
another. -/
def build (symbols : SymbolTable) (factory : Factory) (c : Captures) (table : List Builder) :
    (fuel : Nat) → Id → Option Fragment → Except Fault (Option Tree)
  | 0, _, _ => .error .unfinished
  | fuel + 1, id, fragment => do
    let b ← entry table id
    let type ← entry symbols.names b.type
    match (factory.draft? type).bind (Builder.fill · (Builder.dataOf c b.data)) with
    | none => return none
    | some filled =>
      let children ← sourceNodes c (build symbols factory c table fuel · none) b.children
      return children.bind (Builder.finish filled · fragment)

/-- What a right side puts in the place of matched nodes. -/
def replacement (symbols : SymbolTable) (table : List Builder) (factory : Factory) (c : Captures)
    (fragment : Option Fragment) (fuel : Nat) : RightSide → Except Fault (Option Replacement)
  | .subtree id => do
    let made ← build symbols factory c table fuel id fragment
    return made.map .node
  -- the others run no builder
  | r => .ok (r.build symbols [] factory c fragment)

section Steps

variable {c : Captures} {refersM : Id → Except Fault (Option Tree)} {refers : Id → Option Tree}

lemma nodes_eq_ok {s : Source} (h : ∀ id, s = .builder id → refersM id = .ok (refers id)) :
    nodes c refersM s = .ok (s.nodes? c refers) := by
  cases s with
  | hole hole =>
    rw [nodes, Source.nodes?]
    cases c.get? hole <;> rfl
  | builder id =>
    rw [nodes, Source.nodes?, h id rfl]
    rfl
  | null => rfl

lemma sourceNodes_eq_ok {sources : List Source}
    (h : ∀ id, .builder id ∈ sources → refersM id = .ok (refers id)) :
    sourceNodes c refersM sources = .ok (Builder.sourceNodes? c refers sources) := by
  induction sources with
  | nil => rfl
  | cons s rest ih =>
    have hfirst : nodes c refersM s = .ok (s.nodes? c refers) :=
      nodes_eq_ok fun id hid => h id (hid ▸ List.mem_cons_self)
    rw [sourceNodes, Builder.sourceNodes?, hfirst]
    cases s.nodes? c refers with
    | none => rfl
    | some first =>
      change (sourceNodes c refersM rest >>=
        fun others => (pure (others.map (first ++ ·)) : Except Fault _)) = _
      rw [ih fun id hid => h id (List.mem_cons_of_mem _ hid)]
      cases Builder.sourceNodes? c refers rest <;> rfl

end Steps

section Closed

variable {u : SymbolTable} {l : Language}

theorem build_eq_ok (hc : l.Closed u) {fuel : Nat} {id : Id} (hid : id < l.builders.length)
    (hf : id < fuel) (factory : Factory) (c : Captures) (fragment : Option Fragment) :
    build u factory c l.builderList fuel id fragment =
      .ok (Builder.build u factory c l.builders id fragment) := by
  induction fuel generalizing id fragment with
  | zero => exact absurd hf (Nat.not_lt_zero _)
  | succ fuel ih =>
    have hf' : id ≤ fuel := Nat.le_of_lt_succ hf
    have hlt : id < l.builderList.length := by rwa [Language.builderList, List.length_reverse]
    have hb : l.builderList[id]? = some (l.builderList.get ⟨id,hlt⟩) :=
      List.getElem?_eq_getElem hlt
    generalize l.builderList.get ⟨id,hlt⟩ = b at hb
    have hmem : b ∈ l.builderList := List.mem_of_getElem? hb
    have hbid : b.id = id := hc.builderIds id b hb
    obtain ⟨newer,older,hsplit,hlen⟩ := exists_older hb
    have hold : older <:+ l.builders := (List.suffix_cons b _).trans ⟨newer,hsplit.symm⟩
    have hrefers : ∀ d, .builder d ∈ b.children →
        build u factory c l.builderList fuel d none =
          .ok (Builder.build u factory c older d none) := by
      intro d hd
      have hdid : d < id := hbid ▸ hc.sources b hmem d hd
      rw [ih (Nat.lt_trans hdid hid) (Nat.lt_of_lt_of_le hdid hf'),
        Builder.build_of_suffix hc.builderIds hold (hlen ▸ hdid)]
    have htype : u.names[b.type]? = some (u.names.get ⟨b.type,hc.builderSymbols b hmem⟩) :=
      List.getElem?_eq_getElem _
    generalize u.names.get ⟨b.type,hc.builderSymbols b hmem⟩ = type at htype
    have hname : u.name? b.type = some type := htype
    rw [Builder.build_of_suffix hc.builderIds ⟨newer,hsplit.symm⟩ (by simp [hlen]), Builder.build,
      if_pos hbid, Builder.make, hname, build, entry_eq hb]
    change (entry u.names b.type >>= _) = _
    rw [entry_eq htype, Option.bind_eq_bind, Option.bind_some]
    change (match (factory.draft? type).bind (Builder.fill · (Builder.dataOf c b.data)) with
      | none => Except.ok none
      | some filled => sourceNodes c (build u factory c l.builderList fuel · none) b.children >>=
          fun children => Except.ok (children.bind (Builder.finish filled · fragment))) = _
    cases factory.draft? type with
    | none => rfl
    | some draft =>
      simp only [Option.bind_eq_bind, Option.bind_some]
      cases Builder.fill draft (Builder.dataOf c b.data) with
      | none => rfl
      | some filled =>
        simp only [Option.bind_some]
        rw [sourceNodes_eq_ok hrefers]
        rfl

theorem replacement_eq_ok (hc : l.Closed u) {r : RightSide}
    (hr : ∀ id, r = .subtree id → id < l.builders.length) {fuel : Nat}
    (hf : l.builders.length ≤ fuel) (factory : Factory) (c : Captures)
    (fragment : Option Fragment) :
    replacement u l.builderList factory c fragment fuel r =
      .ok (r.build u l.builders factory c fragment) := by
  cases r with
  | subtree id =>
    have hid := hr id rfl
    rw [replacement, RightSide.build, build_eq_ok hc hid (Nat.lt_of_lt_of_le hid hf)]
    rfl
  | hole h => rfl
  | null => rfl

end Closed

end Indexed
end TreeRules
