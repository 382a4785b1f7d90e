import Covsight.Lib.Rearrangement
import Covsight.Lib.Varint
import Covsight.Lib.EncodedReads

-- Numbers of fixed widths, one after the other, the lowest byte of each first.

-- `to_bytes`, which raises where the number does not fit.
def toBytes (width : Nat) (n : Int) : Option (List UInt8) :=
  if 0 ≤ n ∧ n < 256 ^ width then some (encodeLe width n.toNat) else none

theorem toBytes_eq_some_iff {width : Nat} {n : Int} {bytes : List UInt8} :
    toBytes width n = some bytes ↔ (0 ≤ n ∧ n < 256 ^ width) ∧ encodeLe width n.toNat = bytes := by
  rw [toBytes]
  split
  case isTrue h  => rw [and_iff_right h, Option.some.injEq]
  case isFalse h => exact iff_of_false nofun fun hn => h hn.left

-- Each number with its width. One that does not fit fails the whole.
def pack (fields : List (Nat × Int)) : Option (List UInt8) :=
  (fields.mapM fun (width, n) => toBytes width n).map List.flatten

def Packable (fields : List (Nat × Int)) : Prop :=
  ∀ field ∈ fields, 0 ≤ field.snd ∧ field.snd < 256 ^ field.fst

-- What fields that fit are packed to.
def encodeFields (fields : List (Nat × Int)) : List UInt8 :=
  fields.flatMap fun (width, n) => encodeLe width n.toNat

theorem pack_of_packable {fields : List (Nat × Int)} (h : Packable fields) :
    pack fields = some (encodeFields fields) := by
  have hm : (fields.mapM fun (width, n) => toBytes width n) =
      some (fields.map fun (width, n) => encodeLe width n.toNat) := by
    refine mapM_eq_some_iff.mpr (List.forall₂_map_right_iff.mpr ?_)
    exact List.forall₂_same.mpr fun field hf => toBytes_eq_some_iff.mpr ⟨h field hf, rfl⟩
  rw [pack, hm, Option.map_some, encodeFields, List.flatMap_def]

theorem packable_of_pack {fields : List (Nat × Int)} {bytes : List UInt8} (h : pack fields = some bytes) :
    Packable fields := by
  have ⟨_, hm, _⟩ := Option.map_eq_some_iff.mp h
  intro field hf
  have ⟨_, _, he⟩ := exists_mem_of_mapM hm hf
  exact (toBytes_eq_some_iff.mp he).left

-- One record after the other.
theorem mapM_pack {α : Type} {record : α → Option (List UInt8)} {fields : α → List (Nat × Int)} {xs : List α}
    (h : ∀ x ∈ xs, record x = pack (fields x) ∧ Packable (fields x)) :
    xs.mapM record = some (xs.map fun x => encodeFields (fields x)) := by
  refine mapM_eq_some_iff.mpr (List.forall₂_map_right_iff.mpr (List.forall₂_same.mpr fun x hx => ?_))
  exact (h x hx).left.trans (pack_of_packable (h x hx).right)

theorem packable_nil : Packable [] :=
  nofun

theorem packable_cons {width : Nat} {n : Int} {fields : List (Nat × Int)} :
    Packable ((width, n) :: fields) ↔ (0 ≤ n ∧ n < 256 ^ width) ∧ Packable fields :=
  List.forall_mem_cons

-- Fields are taken off one after the other.
theorem decodeFixed_encodeFields {width : Nat} {n : Int} {fields : List (Nat × Int)}
    (h : 0 ≤ n ∧ n < 256 ^ width) (rest : List UInt8) :
    decodeFixed width (encodeFields ((width, n) :: fields) ++ rest) =
      some (n.toNat, encodeFields fields ++ rest) := by
  have hn : n.toNat < 256 ^ width := (Int.toNat_lt h.left).mpr (Int.natCast_pow 256 width ▸ h.right)
  rw [encodeFields, List.flatMap_cons, List.append_assoc]
  exact decodeFixed_encodeLe hn _

@[simp]
theorem encodeFields_nil (rest : List UInt8) : encodeFields [] ++ rest = rest :=
  rfl

-- Numbers of one width.
theorem pack_map {width : Nat} {ns : List Nat} (h : ∀ n ∈ ns, n < 256 ^ width) :
    pack (ns.map fun n : Nat => (width, (n : Int))) = some (ns.flatMap (encodeLe width)) := by
  have hp : Packable (ns.map fun n : Nat => (width, (n : Int))) := by
    refine List.forall_mem_map.mpr fun n hn => ⟨Int.natCast_nonneg n, ?_⟩
    exact Int.natCast_pow 256 width ▸ Int.ofNat_lt.mpr (h n hn)
  rw [pack_of_packable hp, encodeFields, List.flatMap_map]
  rfl

-- Setters that keep the lowest bytes of each number.
def wrapFields (fields : List (Nat × Int)) : List UInt8 :=
  fields.flatMap fun (width, n) => encodeLe width (n % 256 ^ width).toNat

theorem wrapFields_of_packable {fields : List (Nat × Int)} (h : Packable fields) :
    wrapFields fields = encodeFields fields :=
  List.flatMap_congr fun field hf =>
    congrArg (fun n : Int => encodeLe field.fst n.toNat) (Int.emod_eq_of_lt (h field hf).left (h field hf).right)

-- Reading records of a known size: that there is room for one is tested on what is left of the buffer,
-- and its numbers are then read without a test.

deriving instance DecidableEq for Outcome

def Reading.sub (r : Reading) (m n : Nat) : Nat :=
  if r.wraps then (m + 2 ^ 64 - n) % 2 ^ 64 else m - n

-- The rest of the buffer as a buffer of its own.
def Reading.rest (r : Reading) (off : Nat) : Reading :=
  { r with buffer := ⟨r.buffer.bytes.drop off, r.buffer.small.trans_le' (by simp)⟩ }

namespace Decoder

variable {α β : Type}

def room (n : Nat) : Decoder Unit := fun r c =>
  (if r.sub r.buffer.size c.off < n then .fail else .done (), c)

def word (width : Nat) : Decoder Nat := do
  return decodeLe (← take width)

-- What is read aside is still there afterwards.
def aside (d : Decoder α) : Decoder α := fun r c =>
  ((d (r.rest c.off) {}).fst, c)

def many (n : Nat) (d : Decoder α) : Decoder (List α) :=
  recordsFrom (fun _ xs => do return xs ++ [← d]) n 0 []

variable {d : Decoder α} {f : α → Decoder β} {a : α} {b : β} {bytes bytes' : List UInt8}

theorem reads_word {width n : Nat} (h : n < 256 ^ width) : (word width).Reads (encodeLe width n) n := by
  have ht := (reads_take (encodeLe width n)).map decodeLe
  rwa [length_encodeLe, decodeLe_encodeLe h] at ht

theorem Reads.room {n : Nat} (hd : d.Reads bytes a) (h : n ≤ bytes.length) :
    (do Decoder.room n; d).Reads bytes a := by
  intro r c hm hn
  have hs := r.buffer.small
  have hl := hn.length_le
  have hsub : r.sub r.buffer.size c.off = r.buffer.size - c.off := by
    rw [Reading.sub]
    have hsize : r.buffer.size < 2 ^ 63 := hs
    split
    case isTrue  => omega
    case isFalse => rfl
  have hr : ¬r.sub r.buffer.size c.off < n := by omega
  have hroom : Decoder.room n r c = (.done (), c) := by rw [Decoder.room, if_neg hr]
  exact bind_of_done hroom ▸ hd r c hm hn

-- What was read aside is read again, for something else.
theorem Reads.aside (hd : d.Reads bytes a) (hf : (f a).Reads (bytes ++ bytes') b) :
    (do f (← Decoder.aside d)).Reads (bytes ++ bytes') b := by
  intro r c hm hn
  have hnext : (r.rest c.off).HasNext {} bytes := ⟨Nat.zero_le _, hn.left.next⟩
  have ⟨c', he, _⟩ := hd (r.rest c.off) {} hm hnext
  have ha : d.aside r c = (.done a, c) := by rw [Decoder.aside, he]
  exact bind_of_done ha ▸ hf r c hm hn

-- Numbers of a record that were packed one after the other, and what comes after the record.
theorem Reads.field_append {width : Nat} {n : Int} {fields : List (Nat × Int)} {f : Nat → Decoder β}
    (h : 0 ≤ n ∧ n < 256 ^ width) (hf : (f n.toNat).Reads (encodeFields fields ++ bytes) b) :
    (do f (← word width)).Reads (encodeFields ((width, n) :: fields) ++ bytes) b := by
  have hn : n.toNat < 256 ^ width := (Int.toNat_lt h.left).mpr (Int.natCast_pow 256 width ▸ h.right)
  rw [encodeFields, List.flatMap_cons, List.append_assoc]
  exact (reads_word hn).bind hf

theorem Reads.field {width : Nat} {n : Int} {fields : List (Nat × Int)} {f : Nat → Decoder β}
    (h : 0 ≤ n ∧ n < 256 ^ width) (hf : (f n.toNat).Reads (encodeFields fields) b) :
    (do f (← word width)).Reads (encodeFields ((width, n) :: fields)) b := by
  have hr := field_append h (List.append_nil (encodeFields fields) ▸ hf)
  rwa [List.append_nil] at hr

theorem reads_skip {len : UInt64} (h : len.toNat = bytes.length) : (skip len).Reads bytes () := by
  intro r c _ hn
  exact ⟨_, rfl, h ▸ Reading.add_of_hasNext hn⟩

theorem foldl_append_singleton {γ : Type} (g : γ → α) (xs : List γ) (as : List α) :
    xs.foldl (fun as x => as ++ [g x]) as = as ++ xs.map g := by
  induction xs generalizing as
  case nil          => simp
  case cons x xs hi => rw [List.foldl_cons, hi, List.map_cons, List.append_assoc, List.singleton_append]

theorem reads_many {γ : Type} {encode : γ → List UInt8} {g : γ → α} {xs : List γ}
    (h : ∀ x ∈ xs, d.Reads (encode x) (g x)) : (many xs.length d).Reads (xs.flatMap encode) (xs.map g) := by
  have hr := reads_recordsFrom (fun x hx _ as => (h x hx).map (as ++ [·])) 0 []
  rwa [foldl_append_singleton, List.nil_append] at hr

-- Whatever is read, from whatever bytes.
def Yields (d : Decoder α) (p : α → Prop) : Prop :=
  ∀ r c a c', d r c = (.done a, c') → p a

section Yields

variable {p : α → Prop} {q : β → Prop}

theorem yields_any (d : Decoder α) : d.Yields fun _ => True :=
  fun _ _ _ _ _ => trivial

theorem yields_pure (h : p a) : Yields (pure a) p := by
  intro r c a' c' hd
  cases hd
  exact h

theorem Yields.bind (hd : d.Yields p) (hf : ∀ a, p a → (f a).Yields q) : (d >>= f).Yields q := by
  intro r c b c' h
  cases hr : d r c with
  | mk o e =>
    cases o with
    | done a  => exact hf a (hd r c a e hr) r e b c' <| (bind_of_done hr).symm.trans h
    | fail    => cases (bind_of_fail hr).symm.trans h
    | overrun => cases (bind_of_overrun hr).symm.trans h

theorem Yields.of_next (hf : ∀ a, (f a).Yields q) : (d >>= f).Yields q :=
  (yields_any d).bind fun a _ => hf a

theorem Yields.record (h : d.Yields p) : (record d).Yields p := by
  intro r c a c' hr
  rw [Decoder.record] at hr
  split at hr
  case h_1 b e hd => cases hr; exact h r c a e hd
  case h_2 hd     => exact absurd hr (hd a c')

theorem yields_recordsFrom {body : Nat → α → Decoder α} (h : ∀ i a, p a → (body i a).Yields p) (n i : Nat)
    (ha : p a) : (recordsFrom body n i a).Yields p := by
  induction n generalizing i a
  case zero      => exact yields_pure ha
  case succ n hi =>
    exact (h i a ha).record.bind fun b hb => hi (i + 1) hb

theorem yields_many (h : d.Yields p) (n : Nat) : (many n d).Yields fun xs => ∀ x ∈ xs, p x :=
  yields_recordsFrom (fun _ _ hxs => h.bind fun _ hx => yields_pure <| List.forall_mem_append.mpr
    ⟨hxs, List.forall_mem_singleton.mpr hx⟩) n 0 nofun

end Yields

end Decoder
