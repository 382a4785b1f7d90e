import Mathlib.Data.List.Basic
import Mathlib.Data.List.TakeWhile
import Mathlib.Tactic.Common

-- Documents of nested elements: trees, the text of a tree, documents whose elements are still open, and a
-- reader of the text.

namespace Markup

def space : UInt8 := ' '.toUInt8
def quote : UInt8 := '"'.toUInt8
def less : UInt8 := '<'.toUInt8
def greater : UInt8 := '>'.toUInt8
def slash : UInt8 := '/'.toUInt8
def equals : UInt8 := '='.toUInt8

def isNameByte (b : UInt8) : Bool :=
  b ≠ space ∧ b ≠ quote ∧ b ≠ less ∧ b ≠ greater ∧ b ≠ slash ∧ b ≠ equals

-- Names, by how they are spelled.
class Spelled (ν : Type) where
  spell      : ν → List UInt8
  read       : List UInt8 → Option ν
  read_spell : ∀ n, read (spell n) = some n
  spell_ne   : ∀ n, spell n ≠ []
  named      : ∀ n, ∀ b ∈ spell n, isNameByte b = true

export Spelled (spell)

theorem find_spelled {ν : Type} {f : ν → List UInt8} {all : List ν} (h : (all.map f).Nodup) {n : ν} (hn : n ∈ all) :
    all.find? (f · = f n) = some n := by
  induction all
  case nil => cases hn
  case cons m all hi =>
    rw [List.map_cons, List.nodup_cons] at h
    rw [List.find?_cons]
    rcases List.mem_cons.mp hn with rfl | hn
    case inl => simp
    case inr =>
      have hne : f m ≠ f n := fun he => h.left (he ▸ List.mem_map_of_mem hn)
      simp [hne, hi h.right hn]

-- The values of attributes and the texts stand as they are written. An element without a body is closed by
-- its start tag.
inductive Node (τ α : Type)
  | text (s : List UInt8)
  | leaf (tag : τ) (attrs : List (α × List UInt8))
  | elem (tag : τ) (attrs : List (α × List UInt8)) (nodes : List (Node τ α))

variable {τ α : Type} [Spelled τ] [Spelled α]

def renderAttr (a : α × List UInt8) : List UInt8 :=
  space :: spell a.fst ++ equals :: quote :: a.snd ++ [quote]

def renderAttrs (attrs : List (α × List UInt8)) : List UInt8 :=
  attrs.flatMap renderAttr

def renderStart (tag : τ) (attrs : List (α × List UInt8)) : List UInt8 :=
  less :: spell tag ++ renderAttrs attrs

def renderEnd (tag : τ) : List UInt8 :=
  less :: slash :: spell tag ++ [greater]

mutual

def Node.render : Node τ α → List UInt8
  | .text s               => s
  | .leaf tag attrs       => renderStart tag attrs ++ [slash, greater]
  | .elem tag attrs nodes => renderStart tag attrs ++ greater :: renderAll nodes ++ renderEnd tag

def renderAll : List (Node τ α) → List UInt8
  | []            => []
  | node :: nodes => node.render ++ renderAll nodes

end

-- What is promised of values and of texts are parameters. Texts are not empty and do not meet.

def Node.isText : Node τ α → Bool
  | .text _ => true
  | _       => false

section

variable (value text : List UInt8 → Prop)

mutual

def Node.Formed : Node τ α → Prop
  | .text s             => s ≠ [] ∧ text s
  | .leaf _ attrs       => ∀ a ∈ attrs, value a.snd
  | .elem _ attrs nodes => (∀ a ∈ attrs, value a.snd) ∧ FormedAll nodes

def FormedAll : List (Node τ α) → Prop
  | []            => True
  | node :: nodes => node.Formed ∧ (node.isText → ∀ next ∈ nodes.head?, ¬next.isText) ∧ FormedAll nodes

end

end

-- Reading

def readName {ν : Type} [Spelled ν] (s : List UInt8) : Option (ν × List UInt8) :=
  (Spelled.read (s.takeWhile isNameByte)).map (·, s.dropWhile isNameByte)

def readAttrs : (fuel : Nat) → List UInt8 → Option (List (α × List UInt8) × List UInt8)
  | 0,        _ => none
  | fuel + 1, s =>
    if s.head? = some space then do
      let (name, s) ← readName s.tail
      if s.take 2 = [equals, quote] then
        let (attrs, rest) ← readAttrs fuel ((s.drop 2).dropWhile (· ≠ quote)).tail
        return ((name, (s.drop 2).takeWhile (· ≠ quote)) :: attrs, rest)
      else none
    else
      return ([], s)

def readStart (fuel : Nat) (s : List UInt8) : Option (τ × List (α × List UInt8) × List UInt8) := do
  let (tag, s) ← readName s
  let (attrs, s) ← readAttrs fuel s
  return (tag, attrs, s)

mutual

-- After the first byte of the start tag
def readElement : (fuel : Nat) → List UInt8 → Option (Node τ α × List UInt8)
  | 0,        _ => none
  | fuel + 1, s => do
    let (tag, attrs, s) ← readStart fuel s
    if s.take 2 = [slash, greater] then
      return (.leaf tag attrs, s.drop 2)
    else if s.head? = some greater then
      let (nodes, s) ← readNodes fuel s.tail
      if renderEnd tag <+: s then return (.elem tag attrs nodes, s.drop (renderEnd tag).length) else none
    else none

-- Up to an end tag
def readNodes : (fuel : Nat) → List UInt8 → Option (List (Node τ α) × List UInt8)
  | 0,        _ => none
  | fuel + 1, s =>
    if s.head? = some less then
      if s.tail.head? = some slash then
        return ([], s)
      else do
        let (node, s) ← readElement fuel s.tail
        let (nodes, s) ← readNodes fuel s
        return (node :: nodes, s)
    else if s = [] then
      return ([], s)
    else do
      let (nodes, rest) ← readNodes fuel (s.dropWhile (· ≠ less))
      return (.text (s.takeWhile (· ≠ less)) :: nodes, rest)

end

-- One element, and what comes after it
def read (s : List UInt8) : Option (Node τ α × List UInt8) :=
  if s.head? = some less then readElement s.length s.tail else none

section

theorem takeWhile_append_cons {p : UInt8 → Bool} {s rest : List UInt8} (hs : ∀ b ∈ s, p b = true) {b : UInt8}
    (hb : p b = false) : (s ++ b :: rest).takeWhile p = s ∧ (s ++ b :: rest).dropWhile p = b :: rest := by
  rw [List.takeWhile_append_of_pos hs, List.dropWhile_append_of_pos hs]
  simp [hb]

theorem readName_spell {ν : Type} [Spelled ν] (n : ν) {b : UInt8} (hb : isNameByte b = false) (rest : List UInt8) :
    readName (spell n ++ b :: rest) = some (n, b :: rest) := by
  have hs := @takeWhile_append_cons _ _ rest (Spelled.named n) _ hb
  rw [readName, hs.left, hs.right, Spelled.read_spell, Option.map_some]

theorem takeWhile_quote {s rest : List UInt8} (h : quote ∉ s) :
    (s ++ quote :: rest).takeWhile (· ≠ quote) = s ∧ (s ++ quote :: rest).dropWhile (· ≠ quote) = quote :: rest :=
  takeWhile_append_cons (fun b hb => by simpa using ne_of_mem_of_not_mem hb h) (by simp)

-- What comes after the attributes of a start tag
def Ends (s : List UInt8) : Prop :=
  ∃ b rest, s = b :: rest ∧ (b = slash ∨ b = greater)

theorem readAttrs_render {attrs : List (α × List UInt8)} (ha : ∀ a ∈ attrs, quote ∉ a.snd) {s : List UInt8}
    (hs : Ends s) {fuel : Nat} (hf : attrs.length < fuel) :
    readAttrs fuel (renderAttrs attrs ++ s) = some (attrs, s) := by
  induction attrs generalizing fuel
  case nil =>
    obtain ⟨fuel, rfl⟩ := Nat.exists_eq_add_one_of_ne_zero (Nat.ne_of_gt hf)
    obtain ⟨b, rest, rfl, hb⟩ := hs
    have hn : b ≠ space := by rcases hb with rfl | rfl <;> decide
    simp [renderAttrs, readAttrs, hn]
  case cons a attrs hi =>
    obtain ⟨fuel, rfl⟩ := Nat.exists_eq_add_one_of_ne_zero (Nat.ne_of_gt <| Nat.zero_lt_of_lt hf)
    have hq := ha a (.head _)
    have hi := hi (fun a hm => ha a (.tail _ hm)) (Nat.lt_of_succ_lt_succ hf)
    have he : renderAttrs (a :: attrs) ++ s =
        space :: (spell a.fst ++ equals :: quote :: (a.snd ++ quote :: (renderAttrs attrs ++ s))) := by
      simp [renderAttrs, renderAttr]
    have hname := readName_spell a.fst (show isNameByte equals = false by decide)
      (quote :: (a.snd ++ quote :: (renderAttrs attrs ++ s)))
    have hv := @takeWhile_quote _ (renderAttrs attrs ++ s) hq
    rw [he, readAttrs, List.head?_cons, if_pos rfl, List.tail_cons, hname]
    simp only [Option.bind_eq_bind, Option.bind_some, List.take_succ_cons, List.take_zero, if_true,
      List.drop_succ_cons, List.drop_zero, hv, List.tail_cons, hi]
    rfl

theorem length_attrs_le (attrs : List (α × List UInt8)) : attrs.length ≤ (renderAttrs attrs).length := by
  induction attrs
  case nil => exact Nat.le_refl 0
  case cons a attrs hi =>
    have he : renderAttrs (a :: attrs) = renderAttr a ++ renderAttrs attrs := rfl
    rw [he, List.length_append, renderAttr]
    simp only [List.length_cons, List.length_append]
    omega

-- Nothing of the siblings is left.
def Stops (s : List UInt8) : Prop :=
  s = [] ∨ ∃ rest, s = less :: slash :: rest

theorem spell_cons (tag : τ) : ∃ b s, spell tag = b :: s ∧ b ≠ slash := by
  cases h : spell tag
  case nil => exact absurd h (Spelled.spell_ne tag)
  case cons b s =>
    refine ⟨b, s, rfl, fun he => ?_⟩
    have hb := Spelled.named tag b (h ▸ .head s)
    rw [he] at hb
    exact absurd hb (by decide)

theorem renderStart_append (tag : τ) (attrs : List (α × List UInt8)) (s : List UInt8) :
    renderStart tag attrs ++ s = less :: (spell tag ++ (renderAttrs attrs ++ s)) := by
  simp [renderStart]

-- A start tag is read up to where it ends.
theorem readStart_render (tag : τ) {attrs : List (α × List UInt8)} (ha : ∀ a ∈ attrs, quote ∉ a.snd) {s : List UInt8}
    (hs : Ends s) {fuel : Nat} (hf : attrs.length < fuel) :
    readStart fuel (spell tag ++ (renderAttrs attrs ++ s)) = some (tag, attrs, s) := by
  have hattrs := readAttrs_render ha hs hf
  obtain ⟨b, rest, hc, hb⟩ : ∃ b rest, renderAttrs attrs ++ s = b :: rest ∧ isNameByte b = false := by
    cases attrs
    case cons a attrs => exact ⟨space, _, rfl, by decide⟩
    case nil =>
      obtain ⟨b, rest, he, hb⟩ := hs
      refine ⟨b, rest, he, ?_⟩
      rcases hb with rfl | rfl <;> decide
  rw [hc] at hattrs ⊢
  rw [readStart, readName_spell tag hb, Option.bind_eq_bind, Option.bind_some]
  simp only [hattrs]
  rfl

theorem takeWhile_less {s rest : List UInt8} (h : less ∉ s) (hr : rest = [] ∨ rest.head? = some less) :
    (s ++ rest).takeWhile (· ≠ less) = s ∧ (s ++ rest).dropWhile (· ≠ less) = rest := by
  have hs : ∀ b ∈ s, decide (b ≠ less) = true := fun b hb => by simpa using ne_of_mem_of_not_mem hb h
  rcases hr with rfl | hr
  case inl =>
    rw [List.append_nil]
    exact ⟨List.takeWhile_eq_self_iff.mpr hs, List.dropWhile_eq_nil_iff.mpr hs⟩
  case inr =>
    obtain ⟨t, rfl⟩ := List.head?_eq_some_iff.mp hr
    exact takeWhile_append_cons hs (by simp)

theorem render_cons {node : Node τ α} (h : ¬node.isText) :
    ∃ b s, node.render = less :: b :: s ∧ b ≠ slash := by
  cases node
  case text s => exact absurd rfl h
  case leaf tag attrs =>
    obtain ⟨b, s, hs, hb⟩ := spell_cons tag
    exact ⟨b, _, by rw [Node.render, renderStart_append, hs]; rfl, hb⟩
  case elem tag attrs nodes =>
    obtain ⟨b, s, hs, hb⟩ := spell_cons tag
    exact ⟨b, _, by rw [Node.render, List.append_assoc, renderStart_append, hs]; rfl, hb⟩

theorem less_renderAll {nodes : List (Node τ α)} (h : ∀ next ∈ nodes.head?, ¬next.isText) {rest : List UInt8}
    (hs : Stops rest) : renderAll nodes ++ rest = [] ∨ (renderAll nodes ++ rest).head? = some less := by
  cases nodes
  case nil =>
    rcases hs with rfl | ⟨rest, rfl⟩
    case inl => exact .inl rfl
    case inr => exact .inr rfl
  case cons node nodes =>
    obtain ⟨b, s, he, _⟩ := render_cons (h node rfl)
    exact .inr (by rw [renderAll, he]; rfl)

-- An element among its siblings
theorem readNodes_cons {node : Node τ α} {nodes : List (Node τ α)} {rest : List UInt8} {fuel : Nat}
    (ht : ¬node.isText) (hf : (renderAll (node :: nodes)).length < fuel + 1)
    (he : ∀ rest fuel, node.render.length ≤ fuel → readElement fuel (node.render.tail ++ rest) = some (node, rest))
    (hn : (renderAll nodes).length < fuel → readNodes fuel (renderAll nodes ++ rest) = some (nodes, rest)) :
    readNodes (fuel + 1) (renderAll (node :: nodes) ++ rest) = some (node :: nodes, rest) := by
  obtain ⟨b, s, hr, hb⟩ := render_cons ht
  rw [renderAll, List.length_append] at hf
  have hpos : 0 < node.render.length := by rw [hr]; exact Nat.succ_pos _
  have he := he (renderAll nodes ++ rest) fuel (by omega)
  have hn := hn (by omega)
  rw [hr] at he
  rw [renderAll, List.append_assoc, hr, readNodes]
  simp only [List.cons_append, List.head?_cons, if_true, List.tail_cons, Option.some.injEq, hb, if_false] at he ⊢
  rw [he, Option.bind_eq_bind, Option.bind_some]
  simp only [hn]
  rfl

variable {value text : List UInt8 → Prop}

mutual

theorem readElement_render (hv : ∀ s, value s → quote ∉ s) (ht : ∀ s, text s → less ∉ s) : (node : Node τ α) → ¬node.isText →
    node.Formed value text → (rest : List UInt8) → (fuel : Nat) → node.render.length ≤ fuel →
    readElement fuel (node.render.tail ++ rest) = some (node, rest)
  | .text s,               hs, _,  _,    _,        _  => absurd rfl hs
  | .leaf tag attrs,       _,  hn, rest, 0,        hf => by simp [Node.render] at hf
  | .elem tag attrs nodes, _,  hn, rest, 0,        hf => by simp [Node.render] at hf
  | .leaf tag attrs,       _,  hn, rest, fuel + 1, hf => by
    have hl := length_attrs_le attrs
    have hlen : attrs.length < fuel := by
      simp [Node.render, renderStart] at hf
      omega
    have hends : Ends (slash :: greater :: rest) := ⟨slash, _, rfl, .inl rfl⟩
    have hstart := readStart_render tag (fun a hm => hv _ (hn a hm)) hends hlen
    have he : (Node.leaf tag attrs).render.tail ++ rest =
        spell tag ++ (renderAttrs attrs ++ slash :: greater :: rest) := by
      simp [Node.render, renderStart]
    rw [he, readElement, hstart]
    rfl
  | .elem tag attrs nodes, _,  hn, rest, fuel + 1, hf => by
    have hl := length_attrs_le attrs
    have hlen : attrs.length < fuel ∧ (renderAll nodes).length < fuel := by
      simp [Node.render, renderStart, renderEnd] at hf
      omega
    have hends : Ends (greater :: (renderAll nodes ++ (renderEnd tag ++ rest))) := ⟨greater, _, rfl, .inr rfl⟩
    have hstart := readStart_render tag (fun a hm => hv _ (hn.left a hm)) hends hlen.left
    have hnodes := readNodes_render hv ht nodes hn.right (renderEnd tag ++ rest) (.inr ⟨_, rfl⟩) fuel hlen.right
    have he : (Node.elem tag attrs nodes).render.tail ++ rest =
        spell tag ++ (renderAttrs attrs ++ greater :: (renderAll nodes ++ (renderEnd tag ++ rest))) := by
      simp [Node.render, renderStart]
    rw [he, readElement, hstart, Option.bind_eq_bind, Option.bind_some]
    have hne : (greater :: (renderAll nodes ++ (renderEnd tag ++ rest))).take 2 ≠ [slash, greater] := by
      intro he
      exact absurd (List.cons.inj he).left (by decide)
    simp only [if_neg hne, List.head?_cons, if_true, List.tail_cons, hnodes, Option.bind_eq_bind, Option.bind_some,
      List.prefix_append, List.drop_left]
    rfl

theorem readNodes_render (hv : ∀ s, value s → quote ∉ s) (ht : ∀ s, text s → less ∉ s) : (nodes : List (Node τ α)) → FormedAll value text nodes →
    (rest : List UInt8) → Stops rest → (fuel : Nat) → (renderAll nodes).length < fuel →
    readNodes fuel (renderAll nodes ++ rest) = some (nodes, rest)
  | _,             _,  _,    _,  0,        hf => absurd hf (Nat.not_lt_zero _)
  | [],            _,  rest, hs, fuel + 1, hf => by
    rcases hs with rfl | ⟨rest, rfl⟩
    case inl => simp [renderAll, readNodes]
    case inr => simp [renderAll, readNodes]
  | .text s :: nodes,             hn, rest, hs, fuel + 1, hf => by
    obtain ⟨⟨hne, hval⟩, hnext, hall⟩ := hn
    obtain ⟨b, t, rfl⟩ := List.exists_cons_of_ne_nil hne
    have hless := ht _ hval
    have hb : b ≠ less := fun he => hless (he ▸ .head t)
    have hlen : (renderAll nodes).length < fuel := by
      simp [renderAll, Node.render] at hf
      omega
    have hi := readNodes_render hv ht nodes hall rest hs fuel hlen
    have hsplit := takeWhile_less hless (less_renderAll (fun next hm => hnext rfl next hm) hs)
    have he : renderAll (.text (b :: t) :: nodes) ++ rest = b :: (t ++ (renderAll nodes ++ rest)) := by
      simp [renderAll, Node.render]
    rw [List.cons_append] at hsplit
    rw [he, readNodes, List.head?_cons, if_neg (by simpa using hb), if_neg (List.cons_ne_nil _ _), hsplit.left,
      hsplit.right, hi]
    rfl
  | .leaf tag attrs :: nodes,       hn, rest, hs, fuel + 1, hf =>
    readNodes_cons (by simp [Node.isText]) hf (readElement_render hv ht (.leaf tag attrs) (by simp [Node.isText]) hn.left)
      (readNodes_render hv ht nodes hn.right.right rest hs fuel)
  | .elem tag attrs children :: nodes, hn, rest, hs, fuel + 1, hf =>
    readNodes_cons (by simp [Node.isText]) hf
      (readElement_render hv ht (.elem tag attrs children) (by simp [Node.isText]) hn.left)
      (readNodes_render hv ht nodes hn.right.right rest hs fuel)

end

-- What is written is read back.
theorem read_render (hv : ∀ s, value s → quote ∉ s) (ht : ∀ s, text s → less ∉ s) {node : Node τ α}
    (hs : ¬node.isText) (hn : node.Formed value text) (rest : List UInt8) :
    read (node.render ++ rest) = some (node, rest) := by
  obtain ⟨b, s, hr, _⟩ := render_cons hs
  have he := readElement_render hv ht node hs hn rest (node.render ++ rest).length (by simp)
  have htail : (node.render ++ rest).tail = node.render.tail ++ rest := by
    rw [hr]
    rfl
  rw [read, if_pos (by rw [hr]; rfl), htail, he]

end

-- Documents while they are written

-- An open element. Its attributes can go on until it has a body.
structure Frame (τ α : Type) where
  tag   : τ
  attrs : List (α × List UInt8)
  body  : Option (List (Node τ α))

-- What is complete outside of every open element, and the open ones with the innermost first
structure Draft (τ α : Type) where
  nodes  : List (Node τ α)
  frames : List (Frame τ α)

-- Texts that meet are one.
def push (nodes : List (Node τ α)) : Node τ α → List (Node τ α)
  | .text s =>
    match nodes.getLast? with
    | some (.text t) => nodes.dropLast ++ [.text (t ++ s)]
    | _              => if s = [] then nodes else nodes ++ [.text s]
  | node    => nodes ++ [node]

namespace Frame

def shown (f : Frame τ α) : List UInt8 :=
  renderStart f.tag f.attrs ++ f.body.elim [] fun nodes => greater :: renderAll nodes

def node (f : Frame τ α) : Node τ α :=
  f.body.elim (.leaf f.tag f.attrs) (.elem f.tag f.attrs)

def put (f : Frame τ α) (node : Node τ α) : Frame τ α :=
  { f with body := some (push (f.body.getD []) node) }

end Frame

def shownFrames : List (Frame τ α) → List UInt8
  | []      => []
  | f :: fs => shownFrames fs ++ f.shown

namespace Draft

def shown (d : Draft τ α) : List UInt8 :=
  renderAll d.nodes ++ shownFrames d.frames

def start (d : Draft τ α) (tag : τ) : Draft τ α :=
  { d with frames := ⟨tag, [], none⟩ :: d.frames }

def attr (d : Draft τ α) (a : α × List UInt8) : Draft τ α :=
  match d.frames with
  | []      => d
  | f :: fs => { d with frames := { f with attrs := f.attrs ++ [a] } :: fs }

-- The start tag ends.
def settle (d : Draft τ α) : Draft τ α :=
  match d.frames with
  | []      => d
  | f :: fs => { d with frames := { f with body := some (f.body.getD []) } :: fs }

def put (d : Draft τ α) (node : Node τ α) : Draft τ α :=
  match d.frames with
  | []      => { d with nodes := push d.nodes node }
  | f :: fs => { d with frames := f.put node :: fs }

def close (d : Draft τ α) : Draft τ α :=
  match d.frames with
  | []      => d
  | f :: fs => { d with frames := fs }.put f.node

-- The innermost element can still have attributes.
def Pending (d : Draft τ α) : Prop :=
  ∃ f fs, d.frames = f :: fs ∧ f.body = none

-- A child can follow.
def Settled (d : Draft τ α) : Prop :=
  ∀ f ∈ d.frames.head?, f.body.isSome

-- Only the innermost element may be without a body.
structure Sound (value text : List UInt8 → Prop) (d : Draft τ α) : Prop where
  nodes  : FormedAll value text d.nodes
  attrs  : ∀ f ∈ d.frames, ∀ a ∈ f.attrs, value a.snd
  bodies : ∀ f ∈ d.frames, ∀ nodes ∈ f.body, FormedAll value text nodes
  inner  : ∀ f ∈ d.frames.tail, f.body.isSome

-- The texts outside of the elements
def Around (outer : List UInt8 → Prop) (d : Draft τ α) : Prop :=
  ∀ s, .text s ∈ d.nodes → outer s

end Draft

-- Elements without the texts

inductive Shape (τ α : Type)
  | elem (tag : τ) (attrs : List (α × List UInt8)) (shapes : List (Shape τ α))

mutual

def Node.shapes : Node τ α → List (Shape τ α)
  | .text _               => []
  | .leaf tag attrs       => [.elem tag attrs []]
  | .elem tag attrs nodes => [.elem tag attrs (shapesAll nodes)]

def shapesAll : List (Node τ α) → List (Shape τ α)
  | []            => []
  | node :: nodes => node.shapes ++ shapesAll nodes

end

mutual

-- What the elements have, in the order of their start tags
def Shape.collect {β : Type} (f : τ → List (α × List UInt8) → List β) : Shape τ α → List β
  | .elem tag attrs shapes => f tag attrs ++ collectAll f shapes

def collectAll {β : Type} (f : τ → List (α × List UInt8) → List β) : List (Shape τ α) → List β
  | []              => []
  | shape :: shapes => shape.collect f ++ collectAll f shapes

end

structure Open (τ α : Type) where
  tag    : τ
  attrs  : List (α × List UInt8)
  shapes : List (Shape τ α)

structure Outline (τ α : Type) where
  shapes : List (Shape τ α)
  opens  : List (Open τ α)

namespace Outline

def start (o : Outline τ α) (tag : τ) : Outline τ α :=
  { o with opens := ⟨tag, [], []⟩ :: o.opens }

def attrs (o : Outline τ α) (attrs : List (α × List UInt8)) : Outline τ α :=
  match o.opens with
  | []      => o
  | f :: fs => { o with opens := { f with attrs := f.attrs ++ attrs } :: fs }

def add (o : Outline τ α) (shapes : List (Shape τ α)) : Outline τ α :=
  match o.opens with
  | []      => { o with shapes := o.shapes ++ shapes }
  | f :: fs => { o with opens := { f with shapes := f.shapes ++ shapes } :: fs }

def close (o : Outline τ α) : Outline τ α :=
  match o.opens with
  | []      => o
  | f :: fs => { o with opens := fs }.add [.elem f.tag f.attrs f.shapes]

end Outline

def collectOpens {β : Type} (f : τ → List (α × List UInt8) → List β) : List (Open τ α) → List β
  | []      => []
  | e :: es => collectOpens f es ++ (f e.tag e.attrs ++ collectAll f e.shapes)

def Outline.collect {β : Type} (f : τ → List (α × List UInt8) → List β) (o : Outline τ α) : List β :=
  collectAll f o.shapes ++ collectOpens f o.opens

def Frame.outline (f : Frame τ α) : Open τ α :=
  ⟨f.tag, f.attrs, shapesAll (f.body.getD [])⟩

def Draft.outline (d : Draft τ α) : Outline τ α :=
  ⟨shapesAll d.nodes, d.frames.map Frame.outline⟩

section

variable {value text : List UInt8 → Prop} {d : Draft τ α} {f : Frame τ α} {fs : List (Frame τ α)}
  {nodes : List (Node τ α)} {node : Node τ α}

theorem renderAll_append (nodes nodes' : List (Node τ α)) :
    renderAll (nodes ++ nodes') = renderAll nodes ++ renderAll nodes' := by
  induction nodes
  case nil             => rfl
  case cons node nodes hi => rw [List.cons_append, renderAll, hi, renderAll, List.append_assoc]

omit [Spelled τ] [Spelled α] in
theorem formedAll_append {nodes' : List (Node τ α)} : FormedAll value text (nodes ++ nodes') ↔
    FormedAll value text nodes ∧ FormedAll value text nodes' ∧
      ∀ node ∈ nodes.getLast?, node.isText → ∀ next ∈ nodes'.head?, ¬next.isText := by
  induction nodes
  case nil             => simp [FormedAll]
  case cons node nodes hi =>
    rw [List.cons_append, FormedAll, FormedAll, hi]
    cases nodes
    case nil          => simp [FormedAll]; tauto
    case cons m nodes =>
      rw [List.getLast?_cons_cons]
      simp only [List.cons_append, List.head?_cons]
      tauto

theorem renderAll_push : renderAll (push nodes node) = renderAll nodes ++ node.render := by
  cases node
  case leaf => rw [push, renderAll_append, renderAll, renderAll, List.append_nil]; simp
  case elem => rw [push, renderAll_append, renderAll, renderAll, List.append_nil]; simp
  case text s =>
    rw [push]
    split
    case h_1 t hl =>
      have he : renderAll nodes = renderAll nodes.dropLast ++ t := by
        conv_lhs => rw [← List.dropLast_append_getLast? _ hl, renderAll_append, renderAll, renderAll, List.append_nil]
        rfl
      rw [renderAll_append, he, List.append_assoc]
      simp [renderAll, Node.render]
    case h_2 =>
      split
      case isTrue hs => simp [hs, Node.render]
      case isFalse   => simp [renderAll_append, renderAll, Node.render]

omit [Spelled τ] [Spelled α] in
-- A text goes on with one like it.
theorem formed_push (ht : ∀ s t, text s → text t → text (s ++ t)) (hn : FormedAll value text nodes)
    (hs : ∀ s, node = .text s → text s) (hf : ¬node.isText → node.Formed value text) :
    FormedAll value text (push nodes node) := by
  cases node
  case leaf tag attrs     =>
    have hf := hf (by simp [Node.isText])
    exact formedAll_append.mpr ⟨hn, ⟨hf, by simp, ⟨⟩⟩, by simp [Node.isText]⟩
  case elem tag attrs sub =>
    have hf := hf (by simp [Node.isText])
    exact formedAll_append.mpr ⟨hn, ⟨hf, by simp, ⟨⟩⟩, by simp [Node.isText]⟩
  case text s =>
    have hs := hs s rfl
    rw [push]
    split
    case h_1 t hl =>
      have he := List.dropLast_append_getLast? _ hl
      rw [← he, formedAll_append] at hn
      obtain ⟨hd, ⟨⟨hne, htext⟩, _⟩, hm⟩ := hn
      have hlast : Node.Formed value text (.text (t ++ s) : Node τ α) := ⟨by simp [hne], ht _ _ htext hs⟩
      exact formedAll_append.mpr ⟨hd, ⟨hlast, by simp, ⟨⟩⟩, fun node h hi => absurd rfl (hm node h hi (.text t) rfl)⟩
    case h_2 hl =>
      split
      case isTrue     => exact hn
      case isFalse he =>
        refine formedAll_append.mpr ⟨hn, ⟨⟨he, hs⟩, by simp, ⟨⟩⟩, fun node h hi => ?_⟩
        cases node
        case text t => exact absurd h (hl t)
        case leaf   => cases hi
        case elem   => cases hi

namespace Draft

theorem shown_start (d : Draft τ α) (tag : τ) : (d.start tag).shown = d.shown ++ less :: spell tag := by
  simp [start, shown, shownFrames, Frame.shown, renderStart, renderAttrs]

theorem shown_attr (h : d.Pending) (a : α × List UInt8) : (d.attr a).shown = d.shown ++ renderAttr a := by
  obtain ⟨f, fs, hf, hb⟩ := h
  simp [attr, shown, hf, shownFrames, Frame.shown, hb, renderStart, renderAttrs]

theorem shown_settle (h : d.Pending) : d.settle.shown = d.shown ++ [greater] := by
  obtain ⟨f, fs, hf, hb⟩ := h
  simp [settle, shown, hf, shownFrames, Frame.shown, hb, renderAll]

theorem shown_put (h : d.Settled) (node : Node τ α) : (d.put node).shown = d.shown ++ node.render := by
  cases hf : d.frames
  case nil => simp [put, shown, hf, renderAll_push, shownFrames]
  case cons f fs =>
    obtain ⟨nodes, hn⟩ := Option.isSome_iff_exists.mp (h f (by rw [hf]; rfl))
    simp [put, shown, hf, shownFrames, Frame.shown, Frame.put, hn, renderAll_push]

variable (hd : d.Sound value text)

include hd

omit [Spelled τ] [Spelled α]

theorem Sound.start (hs : d.Settled) (tag : τ) : (d.start tag).Sound value text where
  nodes  := hd.nodes
  attrs  := by simpa [Draft.start] using hd.attrs
  bodies := by simpa [Draft.start] using hd.bodies
  inner  := by
    intro g hg
    cases hf : d.frames
    case nil       => simp [Draft.start, hf] at hg
    case cons f fs =>
      rw [Draft.start, hf, List.tail_cons] at hg
      rcases List.mem_cons.mp hg with rfl | hg
      case inl => exact hs g (by rw [hf]; rfl)
      case inr => exact hd.inner g (by rw [hf]; exact hg)

-- The innermost element is another one.
theorem Sound.change (hf : d.frames = f :: fs) {g : Frame τ α} (ha : ∀ a ∈ g.attrs, value a.snd)
    (hb : ∀ nodes ∈ g.body, FormedAll value text nodes) : Sound value text { d with frames := g :: fs } where
  nodes  := hd.nodes
  attrs  := List.forall_mem_cons.mpr ⟨ha, fun f' hm => hd.attrs f' (hf ▸ .tail _ hm)⟩
  bodies := List.forall_mem_cons.mpr ⟨hb, fun f' hm => hd.bodies f' (hf ▸ .tail _ hm)⟩
  inner  := fun f' hm => hd.inner f' (hf ▸ hm)

theorem Sound.attr {a : α × List UInt8} (ha : value a.snd) : (d.attr a).Sound value text := by
  rw [Draft.attr]
  split
  case h_1         => exact hd
  case h_2 f fs hf =>
    have hm : f ∈ d.frames := hf ▸ .head _
    refine hd.change hf (fun b hb => ?_) (hd.bodies f hm)
    rcases List.mem_append.mp hb with hb | hb
    case inl => exact hd.attrs f hm b hb
    case inr => exact List.mem_singleton.mp hb ▸ ha

theorem formed_body (hf : f ∈ d.frames) : FormedAll value text (f.body.getD []) := by
  cases hb : f.body
  case none   => exact ⟨⟩
  case some n => exact hd.bodies f hf n hb

theorem Sound.settle : d.settle.Sound value text := by
  rw [Draft.settle]
  split
  case h_1         => exact hd
  case h_2 f fs hf =>
    have hm : f ∈ d.frames := hf ▸ .head _
    exact hd.change hf (hd.attrs f hm) fun nodes hb => Option.some.inj hb ▸ formed_body hd hm

theorem Sound.put (ht : ∀ s t, text s → text t → text (s ++ t)) (hs : ∀ s, node = .text s → text s)
    (hn : ¬node.isText → node.Formed value text) : (d.put node).Sound value text := by
  rw [Draft.put]
  split
  case h_1 hf      => exact ⟨formed_push ht hd.nodes hs hn, hd.attrs, hd.bodies, hd.inner⟩
  case h_2 f fs hf =>
    have hm : f ∈ d.frames := hf ▸ .head _
    exact hd.change hf (hd.attrs f hm) fun nodes hb =>
      Option.some.inj hb ▸ formed_push ht (formed_body hd hm) hs hn

theorem Sound.close (ht : ∀ s t, text s → text t → text (s ++ t)) : d.close.Sound value text := by
  rw [Draft.close]
  split
  case h_1         => exact hd
  case h_2 f fs hf =>
    have hm : f ∈ d.frames := hf ▸ .head _
    have hfs : Sound value text { d with frames := fs } :=
      ⟨hd.nodes, fun g hg => hd.attrs g (hf ▸ .tail _ hg), fun g hg => hd.bodies g (hf ▸ .tail _ hg),
        fun g hg => hd.inner g (hf ▸ List.mem_of_mem_tail hg)⟩
    have hn : ¬f.node.isText ∧ f.node.Formed value text := by
      rw [Frame.node]
      cases hb : f.body
      case none   => exact ⟨by simp [Node.isText], hd.attrs f hm⟩
      case some n => exact ⟨by simp [Node.isText], hd.attrs f hm, hd.bodies f hm n hb⟩
    exact hfs.put ht (fun s he => absurd (he ▸ rfl) hn.left) fun _ => hn.right

end Draft

omit [Spelled τ] [Spelled α] in
theorem text_push {outer : List UInt8 → Prop} (ho : ∀ s t, outer s → outer t → outer (s ++ t))
    (hn : ∀ s, .text s ∈ nodes → outer s) (h : ∀ s, node = .text s → outer s) :
    ∀ s, .text s ∈ push nodes node → outer s := by
  intro s hs
  cases node
  case leaf   => exact hn s (by simpa [push] using hs)
  case elem   => exact hn s (by simpa [push] using hs)
  case text t =>
    have ht := h t rfl
    rw [push] at hs
    split at hs
    case h_1 last hl =>
      have hlast := hn last (List.mem_of_getLast? hl)
      rcases List.mem_append.mp hs with hs | hs
      case inl => exact hn s (List.dropLast_subset _ hs)
      case inr =>
        cases List.mem_singleton.mp hs
        exact ho _ _ hlast ht
    case h_2         =>
      split at hs
      case isTrue  => exact hn s hs
      case isFalse =>
        rcases List.mem_append.mp hs with hs | hs
        case inl => exact hn s hs
        case inr =>
          cases List.mem_singleton.mp hs
          exact ht

namespace Draft

omit [Spelled τ] [Spelled α]

variable {outer : List UInt8 → Prop}

theorem Around.attr (h : d.Around outer) (a : α × List UInt8) : (d.attr a).Around outer := by
  rw [Draft.attr]
  split <;> exact h

theorem Around.settle (h : d.Around outer) : d.settle.Around outer := by
  rw [Draft.settle]
  split <;> exact h

theorem Around.put (ho : ∀ s t, outer s → outer t → outer (s ++ t)) (h : d.Around outer)
    (hs : ∀ s, node = .text s → d.frames = [] → outer s) : (d.put node).Around outer := by
  rw [Draft.put]
  split
  case h_1 hf => exact text_push ho h fun s he => hs s he hf
  case h_2    => exact h

theorem Around.close (ho : ∀ s t, outer s → outer t → outer (s ++ t)) (h : d.Around outer) : d.close.Around outer := by
  rw [Draft.close]
  split
  case h_1         => exact h
  case h_2 f fs hf =>
    have hfs : Draft.Around outer { d with frames := fs } := h
    refine hfs.put ho fun s he _ => ?_
    rw [Frame.node] at he
    cases hb : f.body <;> simp [hb] at he

end Draft

theorem Draft.shown_close (hd : d.Sound value text) (hf : d.frames = f :: fs) :
    d.close.shown = d.shown ++ if f.body.isNone then [slash, greater] else renderEnd f.tag := by
  have hs : Draft.Settled { d with frames := fs } := fun g hg => hd.inner g (by
    rw [hf, List.tail_cons]
    exact List.mem_of_mem_head? hg)
  rw [Draft.close, hf]
  refine (Draft.shown_put hs _).trans ?_
  rw [Frame.node, Draft.shown, Draft.shown, hf, shownFrames, Frame.shown]
  cases f.body
  case none   => simp [Node.render]
  case some n => simp [Node.render]

-- An element that begins a document is followed by nothing but text.
theorem single_root (ht : ∀ s, text s → less ∉ s) (hn : FormedAll value text nodes) {shape : Shape τ α}
    (hs : shapesAll nodes = [shape]) (hb : (renderAll nodes).head? = some less) :
    ∃ root, ¬root.isText ∧ root.shapes = [shape] ∧ root.Formed value text ∧
      (nodes = [root] ∨ ∃ s, nodes = [root, .text s]) := by
  have helem {node : Node τ α} (h : node.shapes = []) : node.isText := by
    cases node
    case text => rfl
    case leaf => cases h
    case elem => cases h
  cases nodes
  case nil             => cases hs
  case cons root nodes =>
    have hroot : ¬root.isText := by
      intro h
      cases root
      case leaf   => cases h
      case elem   => cases h
      case text s =>
        obtain ⟨b, s, rfl⟩ := List.exists_cons_of_ne_nil hn.left.left
        cases (hb : some b = some less)
        exact ht _ hn.left.right (.head _)
    obtain ⟨hf, -, hall⟩ := hn
    have hlen : root.shapes ≠ [] := fun h => hroot (helem h)
    rw [shapesAll] at hs
    obtain ⟨hs, hrest⟩ : root.shapes = [shape] ∧ shapesAll nodes = [] := by
      rcases List.append_eq_singleton_iff.mp hs with ⟨h, _⟩ | h
      case inl => exact absurd h hlen
      case inr => exact h
    refine ⟨root, hroot, hs, hf, ?_⟩
    cases nodes
    case nil             => exact .inl rfl
    case cons next nodes =>
      rw [shapesAll, List.append_eq_nil_iff] at hrest
      have hnext := helem hrest.left
      cases nodes
      case cons last nodes =>
        rw [shapesAll, List.append_eq_nil_iff] at hrest
        exact absurd (helem hrest.right.left) (hall.right.left hnext last rfl)
      case nil             =>
        cases next
        case leaf => cases hnext
        case elem => cases hnext
        case text => exact .inr ⟨_, rfl⟩

omit [Spelled τ] [Spelled α]

theorem shapesAll_append (nodes nodes' : List (Node τ α)) :
    shapesAll (nodes ++ nodes') = shapesAll nodes ++ shapesAll nodes' := by
  induction nodes
  case nil                => rfl
  case cons node nodes hi => rw [List.cons_append, shapesAll, hi, shapesAll, List.append_assoc]

theorem shapesAll_push : shapesAll (push nodes node) = shapesAll nodes ++ node.shapes := by
  cases node
  case leaf => rw [push, shapesAll_append, shapesAll, shapesAll, List.append_nil]; simp
  case elem => rw [push, shapesAll_append, shapesAll, shapesAll, List.append_nil]; simp
  case text s =>
    rw [push]
    split
    case h_1 t hl =>
      have he : shapesAll nodes = shapesAll nodes.dropLast := by
        conv_lhs => rw [← List.dropLast_append_getLast? _ hl, shapesAll_append, shapesAll, shapesAll, List.append_nil]
        exact List.append_nil _
      rw [shapesAll_append, he]
      simp [shapesAll, Node.shapes]
    case h_2 =>
      split
      case isTrue hs => simp [Node.shapes]
      case isFalse   => simp [shapesAll_append, shapesAll, Node.shapes]

theorem collectAll_append {β : Type} (f : τ → List (α × List UInt8) → List β) (ss ts : List (Shape τ α)) :
    collectAll f (ss ++ ts) = collectAll f ss ++ collectAll f ts := by
  induction ss
  case nil          => rfl
  case cons s ss hi => rw [List.cons_append, collectAll, hi, collectAll, List.append_assoc]

namespace Draft

theorem outline_attr (d : Draft τ α) (a : α × List UInt8) : (d.attr a).outline = d.outline.attrs [a] := by
  cases hf : d.frames <;> simp [attr, Outline.attrs, outline, Frame.outline, hf]

theorem outline_settle (d : Draft τ α) : d.settle.outline = d.outline := by
  cases hf : d.frames <;> simp [settle, outline, Frame.outline, hf]

theorem outline_put (d : Draft τ α) (node : Node τ α) : (d.put node).outline = d.outline.add node.shapes := by
  cases hf : d.frames <;> simp [put, outline, Outline.add, Frame.outline, Frame.put, hf, shapesAll_push]

theorem outline_close (d : Draft τ α) : d.close.outline = d.outline.close := by
  cases hf : d.frames
  case nil       => simp [close, Outline.close, outline, hf]
  case cons f fs =>
    have hn : f.node.shapes = [.elem f.tag f.attrs (shapesAll (f.body.getD []))] := by
      rw [Frame.node]
      cases f.body <;> rfl
    rw [close, hf]
    refine (outline_put _ _).trans ?_
    rw [hn]
    simp [Outline.close, outline, Frame.outline, hf]

end Draft

namespace Outline

@[simp]
theorem attrs_nil (o : Outline τ α) : o.attrs [] = o := by
  rw [attrs]
  split
  case h_1    => rfl
  case h_2 hf => rw [List.append_nil, ← hf]

@[simp]
theorem attrs_attrs (o : Outline τ α) (as bs : List (α × List UInt8)) : (o.attrs as).attrs bs = o.attrs (as ++ bs) := by
  cases hf : o.opens <;> simp [attrs, hf]

@[simp]
theorem add_nil (o : Outline τ α) : o.add [] = o := by
  rw [add]
  split
  case h_1    => rw [List.append_nil]
  case h_2 hf => rw [List.append_nil, ← hf]

@[simp]
theorem add_add (o : Outline τ α) (ss ts : List (Shape τ α)) : (o.add ss).add ts = o.add (ss ++ ts) := by
  cases hf : o.opens <;> simp [add, hf]

-- An element that is opened, given attributes and children and closed again
@[simp]
theorem close_start (o : Outline τ α) (tag : τ) (as : List (α × List UInt8)) (ss : List (Shape τ α)) :
    (((o.start tag).attrs as).add ss).close = o.add [.elem tag as ss] := by
  simp [start, attrs, add, close]

@[simp]
theorem close_start_add (o : Outline τ α) (tag : τ) (ss : List (Shape τ α)) :
    ((o.start tag).add ss).close = o.add [.elem tag [] ss] := by
  simp [start, add, close]

@[simp]
theorem close_start_nil (o : Outline τ α) (tag : τ) : (o.start tag).close = o.add [.elem tag [] []] := by
  simp [start, add, close]

@[simp]
theorem close_start_attrs (o : Outline τ α) (tag : τ) (as : List (α × List UInt8)) :
    ((o.start tag).attrs as).close = o.add [.elem tag as []] := by
  simp [start, attrs, add, close]

-- What is collected grows with the elements that are added.

variable {β : Type} (f : τ → List (α × List UInt8) → List β)

theorem collect_start {tag : τ} (h : f tag [] = []) (o : Outline τ α) : (o.start tag).collect f = o.collect f := by
  simp [collect, start, collectOpens, collectAll, h]

theorem collect_attrs (o : Outline τ α) (h : ∀ e ∈ o.opens.head?, ∀ as, f e.tag as = []) (as : List (α × List UInt8)) :
    (o.attrs as).collect f = o.collect f := by
  cases hf : o.opens
  case nil       => simp [collect, attrs, hf]
  case cons e es =>
    have he := h e (by rw [hf]; rfl)
    simp [collect, attrs, hf, collectOpens, he]

theorem collect_add (o : Outline τ α) (ss : List (Shape τ α)) : (o.add ss).collect f = o.collect f ++ collectAll f ss := by
  cases hf : o.opens <;> simp [collect, add, hf, collectOpens, collectAll_append]

theorem collect_close (o : Outline τ α) : o.close.collect f = o.collect f := by
  cases hf : o.opens
  case nil       => simp [close, hf]
  case cons e es =>
    rw [close, hf]
    refine (collect_add f _ _).trans ?_
    simp [collect, hf, collectOpens, collectAll, Shape.collect]

end Outline

end

end Markup
