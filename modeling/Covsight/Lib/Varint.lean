import Mathlib.Algebra.Group.Int.Defs
import Mathlib.Algebra.Group.Nat.Defs
import Mathlib.Tactic.Common

-- Numbers as bytes of seven bits each, the lowest first; every byte but the last has its high bit
-- set. A decoder takes a value off the front of some bytes.

-- The fuel is at least the number of bytes minus one.
def varintBytes : (fuel n : Nat) → List UInt8
  | 0,        n => [n.toUInt8]
  | fuel + 1, n =>
    if n < 128 then [n.toUInt8] else (n % 128 + 128).toUInt8 :: varintBytes fuel (n / 128)

def encodeVarint (n : Nat) : List UInt8 :=
  varintBytes n n

def decodeVarint : List UInt8 → Option (Nat × List UInt8)
  | []        => none
  | b :: rest =>
    if b.toNat < 128 then
      some (b.toNat, rest)
    else
      (decodeVarint rest).map fun (n, rest) => (b.toNat - 128 + 128 * n, rest)

theorem toNat_toUInt8 {n : Nat} (h : n < 256) : n.toUInt8.toNat = n := by
  simp [Nat.mod_eq_of_lt h]

theorem decodeVarint_varintBytes {fuel n : Nat} (h : n ≤ fuel) (rest : List UInt8) :
    decodeVarint (varintBytes fuel n ++ rest) = some (n, rest) := by
  induction fuel generalizing n
  case zero =>
    have hn : n = 0 := by omega
    rw [hn]
    rfl
  case succ fuel hi =>
    rw [varintBytes]
    split
    case isTrue hl =>
      rw [List.singleton_append, decodeVarint, toNat_toUInt8 (by omega), if_pos hl]
    case isFalse hl =>
      rw [List.cons_append, decodeVarint, toNat_toUInt8 (by omega), if_neg (by omega),
        hi (by omega), Option.map_some]
      refine congrArg (fun m => some (m, rest)) ?_
      omega

theorem decodeVarint_encodeVarint (n : Nat) (rest : List UInt8) :
    decodeVarint (encodeVarint n ++ rest) = some (n, rest) :=
  decodeVarint_varintBytes (Nat.le_refl n) rest

theorem varintBytes_ne_nil (fuel n : Nat) : varintBytes fuel n ≠ [] := by
  cases fuel
  case zero => simp [varintBytes]
  case succ =>
    rw [varintBytes]
    split <;> simp

-- A field that is read is passed on to what reads the next one.
theorem bind_of_eq_some {α β : Type} {m : Option α} {x : α} (h : m = some x) (f : α → Option β) :
    m >>= f = f x := by
  rw [h]
  rfl

theorem bind_of_eq_none {α β : Type} {m : Option α} (h : m = none) (f : α → Option β) :
    m >>= f = none := by
  rw [h]
  rfl

-- An absent value takes no bytes.
def encodeOption {α : Type*} (encode : α → List UInt8) : Option α → List UInt8
  | none   => []
  | some a => encode a

-- A value that is there if some bit of a word is set.
def decodeIf {α : Type*} (word bit : Nat) (decode : List UInt8 → Option (α × List UInt8))
    (bytes : List UInt8) : Option (Option α × List UInt8) :=
  if word &&& bit = 0 then
    some (none, bytes)
  else
    (decode bytes).map fun (a, bytes) => (some a, bytes)

theorem decodeIf_encodeOption {α : Type*} {decode : List UInt8 → Option (α × List UInt8)}
    {encode : α → List UInt8} {a : Option α} {word bit : Nat}
    (h : ∀ x ∈ a, ∀ rest, decode (encode x ++ rest) = some (x, rest))
    (hb : word &&& bit = 0 ↔ a = none) (rest : List UInt8) :
    decodeIf word bit decode (encodeOption encode a ++ rest) = some (a, rest) := by
  rw [decodeIf]
  cases a
  case none => exact if_pos (hb.mpr rfl)
  case some x =>
    rw [if_neg fun hc => nomatch hb.mp hc]
    change (decode (encode x ++ rest)).map _ = _
    rw [h x rfl]
    rfl

-- Taking a number of values off the front.
def decodeMany {α : Type*} (decode : List UInt8 → Option (α × List UInt8)) :
    Nat → List UInt8 → Option (List α × List UInt8)
  | 0,     bytes => some ([], bytes)
  | n + 1, bytes => do
    let (x, bytes) ← decode bytes
    let (xs, bytes) ← decodeMany decode n bytes
    return (x :: xs, bytes)

theorem decodeMany_map_flatMap {α β : Type*} {decode : List UInt8 → Option (α × List UInt8)}
    {encode : β → List UInt8} {f : β → α} {xs : List β}
    (h : ∀ x ∈ xs, ∀ rest, decode (encode x ++ rest) = some (f x, rest)) (rest : List UInt8) :
    decodeMany decode xs.length (xs.flatMap encode ++ rest) = some (xs.map f, rest) := by
  induction xs
  case nil => rfl
  case cons x xs hi =>
    rw [List.length_cons, decodeMany, List.flatMap_cons, List.append_assoc, h x (.head _)]
    simp only [Option.bind_eq_bind, Option.bind_some, hi fun x hx => h x (.tail _ hx)]
    rfl

theorem decodeMany_flatMap {α : Type*} {decode : List UInt8 → Option (α × List UInt8)}
    {encode : α → List UInt8} {xs : List α}
    (h : ∀ x ∈ xs, ∀ rest, decode (encode x ++ rest) = some (x, rest)) (rest : List UInt8) :
    decodeMany decode xs.length (xs.flatMap encode ++ rest) = some (xs, rest) := by
  have hm := decodeMany_map_flatMap (f := id) h rest
  rwa [List.map_id] at hm

-- A list takes at least as many bytes as it has entries.
theorem length_le_flatMap {α : Type*} {encode : α → List UInt8} {xs : List α}
    (h : ∀ x ∈ xs, encode x ≠ []) : xs.length ≤ (xs.flatMap encode).length := by
  induction xs
  case nil => exact Nat.le_refl _
  case cons x xs hi =>
    have hx := List.length_pos_iff.mpr (h x (.head _))
    have hs := hi fun y hy => h y (.tail _ hy)
    rw [List.flatMap_cons, List.length_cons, List.length_append]
    omega

-- Taking values off until nothing is left.
def decodeAll {α : Type*} (decode : List UInt8 → Option (α × List UInt8)) :
    (fuel : Nat) → List UInt8 → Option (List α)
  | _,        []    => some []
  | 0,        _     => none
  | fuel + 1, bytes => do
    let (x, rest) ← decode bytes
    let xs ← decodeAll decode fuel rest
    return x :: xs

theorem decodeAll_flatMap {α : Type*} {decode : List UInt8 → Option (α × List UInt8)}
    {encode : α → List UInt8} {xs : List α}
    (h : ∀ x ∈ xs, ∀ rest, decode (encode x ++ rest) = some (x, rest))
    (hn : ∀ x ∈ xs, encode x ≠ []) {fuel : Nat} (hf : xs.length ≤ fuel) :
    decodeAll decode fuel (xs.flatMap encode) = some xs := by
  induction xs generalizing fuel
  case nil => cases fuel <;> rfl
  case cons x xs hi =>
    obtain ⟨fuel, rfl⟩ : ∃ m, fuel = m + 1 := ⟨fuel - 1, by simp at hf; omega⟩
    have hx := h x (.head _) (xs.flatMap encode)
    have ⟨b, bs, hb⟩ := List.exists_cons_of_ne_nil (hn x (.head _))
    have hr : decodeAll decode fuel (xs.flatMap encode) = some xs :=
      hi (fun x hx => h x (.tail _ hx)) (fun x hx => hn x (.tail _ hx)) (by simpa using hf)
    rw [List.flatMap_cons, hb, List.cons_append, decodeAll]
    · rw [hb, List.cons_append] at hx
      simp [hx, hr]
    · exact List.cons_ne_nil _ _

-- Decoding a number of at most so many bytes.
def decodeVarintWithin : (limit : Nat) → List UInt8 → Option (Nat × List UInt8)
  | 0,         _         => none
  | _ + 1,     []        => none
  | limit + 1, b :: rest =>
    if b.toNat < 128 then
      some (b.toNat, rest)
    else
      (decodeVarintWithin limit rest).map fun (n, rest) => (b.toNat - 128 + 128 * n, rest)

theorem decodeVarintWithin_varintBytes {fuel limit n : Nat} (h : n ≤ fuel) (hp : limit ≠ 0)
    (hl : n < 128 ^ limit) (rest : List UInt8) :
    decodeVarintWithin limit (varintBytes fuel n ++ rest) = some (n, rest) := by
  induction fuel generalizing limit n
  case zero =>
    obtain ⟨limit, rfl⟩ := Nat.exists_eq_succ_of_ne_zero hp
    have hn : n = 0 := by omega
    rw [hn]
    rfl
  case succ fuel hi =>
    obtain ⟨limit, rfl⟩ := Nat.exists_eq_succ_of_ne_zero hp
    rw [varintBytes]
    split
    case isTrue hs =>
      rw [List.singleton_append, decodeVarintWithin, toNat_toUInt8 (by omega), if_pos hs]
    case isFalse hs =>
      have hd : n / 128 < 128 ^ limit := by
        rw [Nat.pow_succ] at hl
        omega
      have hp : limit ≠ 0 := by
        rintro rfl
        rw [Nat.pow_zero] at hd
        omega
      rw [List.cons_append, decodeVarintWithin, toNat_toUInt8 (by omega), if_neg (by omega),
        hi (by omega) hp hd, Option.map_some]
      refine congrArg (fun m => some (m, rest)) ?_
      omega

-- Signed numbers with the sign in the lowest bit.

def zigzag (v : Int) : Nat :=
  if 0 ≤ v then 2 * v.toNat else 2 * (-v).toNat - 1

def unzigzag (n : Nat) : Int :=
  if n % 2 = 0 then n / 2 else -((n + 1) / 2)

theorem unzigzag_zigzag (v : Int) : unzigzag (zigzag v) = v := by
  rw [unzigzag, zigzag]
  grind

-- Numbers of a fixed width, the lowest byte first.

def encodeLe : (width n : Nat) → List UInt8
  | 0,         _ => []
  | width + 1, n => n.toUInt8 :: encodeLe width (n / 256)

def decodeLe : List UInt8 → Nat
  | []         => 0
  | b :: bytes => b.toNat + 256 * decodeLe bytes

@[simp]
theorem length_encodeLe (width n : Nat) : (encodeLe width n).length = width := by
  induction width generalizing n
  case zero          => rfl
  case succ width hi => rw [encodeLe, List.length_cons, hi]

theorem decodeLe_encodeLe {width n : Nat} (h : n < 256 ^ width) :
    decodeLe (encodeLe width n) = n := by
  induction width generalizing n
  case zero =>
    rw [Nat.pow_zero] at h
    rw [encodeLe, decodeLe]
    omega
  case succ width hi =>
    have hd : n / 256 < 256 ^ width := by
      rw [Nat.pow_succ] at h
      omega
    have hm : n.toUInt8.toNat = n % 256 := by simp
    rw [encodeLe, decodeLe, hi hd, hm]
    omega

def decodeFixed (width : Nat) (bytes : List UInt8) : Option (Nat × List UInt8) :=
  if bytes.length < width then none else some (decodeLe (bytes.take width), bytes.drop width)

theorem decodeFixed_encodeLe {width n : Nat} (h : n < 256 ^ width) (rest : List UInt8) :
    decodeFixed width (encodeLe width n ++ rest) = some (n, rest) := by
  have hl := length_encodeLe width n
  rw [decodeFixed, if_neg (by simp), List.take_left' hl, List.drop_left' hl, decodeLe_encodeLe h]

-- A decoder that does not look past what it takes.
structure Local {α : Type} (decode : List UInt8 → Option (α × List UInt8)) : Prop where
  append : ∀ {bytes : List UInt8} {x : α} {rest : List UInt8}, decode bytes = some (x, rest) →
    ∀ more, decode (bytes ++ more) = some (x, rest ++ more)

namespace Local

variable {α β : Type} {decode : List UInt8 → Option (α × List UInt8)}

theorem pure (x : α) : Local fun bytes => some (x, bytes) where
  append h more := by
    cases h
    rfl

theorem bind {f : α × List UInt8 → Option (β × List UInt8)} (hd : Local decode)
    (hf : ∀ a, Local fun bytes => f (a, bytes)) : Local fun bytes => decode bytes >>= f where
  append h more := by
    have ⟨⟨a, rest⟩, ha, hb⟩ := Option.bind_eq_some_iff.mp h
    exact Option.bind_eq_some_iff.mpr ⟨(a, rest ++ more), hd.append ha more, (hf a).append hb more⟩

theorem map (f : α → β) (hd : Local decode) :
    Local fun bytes => (decode bytes).map fun (a, bytes) => (f a, bytes) where
  append h more := by
    have ⟨⟨a, rest⟩, ha, hb⟩ := Option.map_eq_some_iff.mp h
    cases hb
    exact Option.map_eq_some_iff.mpr ⟨_, hd.append ha more, rfl⟩

-- What is taken off some bytes is taken off first when there are more, and then there is more to
-- take.
theorem decodeAll_append (hd : Local decode) {fuel : Nat} {bytes more : List UInt8} {xs ys : List α}
    (hx : decodeAll decode fuel bytes = some xs)
    (hy : decodeAll decode fuel (bytes ++ more) = some ys) (hm : more ≠ []) :
    xs.length < ys.length := by
  induction fuel generalizing bytes xs ys
  case zero =>
    obtain ⟨b, more, rfl⟩ := List.exists_cons_of_ne_nil hm
    cases bytes <;> nomatch hy
  case succ fuel hi =>
    cases bytes
    case nil =>
      obtain ⟨b, more, rfl⟩ := List.exists_cons_of_ne_nil hm
      cases hx
      have ⟨_, _, hy⟩ := Option.bind_eq_some_iff.mp hy
      have ⟨_, _, hy⟩ := Option.bind_eq_some_iff.mp hy
      cases hy
      exact Nat.succ_pos _
    case cons b bytes =>
      have ⟨⟨x, rest⟩, hx₁, hx⟩ := Option.bind_eq_some_iff.mp hx
      have ⟨xs, hx₂, hx⟩ := Option.bind_eq_some_iff.mp hx
      have ⟨⟨y, rest'⟩, hy₁, hy⟩ := Option.bind_eq_some_iff.mp hy
      have ⟨ys, hy₂, hy⟩ := Option.bind_eq_some_iff.mp hy
      have he := (hd.append hx₁ more).symm.trans hy₁
      cases hx
      cases hy
      cases he
      exact Nat.succ_lt_succ (hi hx₂ hy₂)

end Local

variable {α : Type} {decode : List UInt8 → Option (α × List UInt8)}

theorem local_decodeIf (hd : Local decode) (word bit : Nat) : Local (decodeIf word bit decode) where
  append h more := by
    rw [decodeIf] at h ⊢
    split at h
    case isTrue hb =>
      cases h
      exact if_pos hb
    case isFalse hb =>
      rw [if_neg hb]
      exact (hd.map some).append h more

theorem local_decodeMany (hd : Local decode) (n : Nat) : Local (decodeMany decode n) := by
  induction n
  case zero      => exact .pure []
  case succ n hi => exact .bind hd fun x => .bind hi fun xs => .pure (x :: xs)

theorem local_decodeVarint : Local decodeVarint where
  append {bytes} {v} {rest} h more := by
    induction bytes generalizing v
    case nil => nomatch h
    case cons b bytes hi =>
      rw [decodeVarint] at h
      rw [List.cons_append, decodeVarint]
      split at h
      case isTrue hb =>
        cases h
        exact if_pos hb
      case isFalse hb =>
        have ⟨⟨n, rest'⟩, hd, he⟩ := Option.map_eq_some_iff.mp h
        cases he
        rw [if_neg hb, hi hd]
        rfl

theorem local_decodeVarintWithin (limit : Nat) : Local (decodeVarintWithin limit) := by
  induction limit
  case zero => exact ⟨fun h => nomatch h⟩
  case succ limit hi =>
    refine ⟨fun {bytes} _ _ h more => ?_⟩
    cases bytes
    case nil => nomatch h
    case cons b bytes =>
      rw [decodeVarintWithin] at h
      rw [List.cons_append, decodeVarintWithin]
      split at h
      case isTrue hb =>
        cases h
        exact if_pos hb
      case isFalse hb =>
        rw [if_neg hb]
        exact (hi.map (b.toNat - 128 + 128 * ·)).append h more
