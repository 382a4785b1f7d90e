import Covsight.Lib.Rearrangement
import Covsight.Ncdb.TestplanImports
import Mathlib.Logic.Function.Basic

-- Names of tests come from a template whose placeholders are filled in.

namespace Template

-- A template is made of letters and of the keys of its placeholders.
inductive Token
  | letter (c : Char)
  | key (key : String)
  deriving DecidableEq

-- Past the characters of the last placeholder.
def tokensFrom (isWord : Char → Bool) : (skip : Nat) → List Char → List Token
  | _,        []      => []
  | skip + 1, _ :: cs => tokensFrom isWord skip cs
  | 0,        c :: cs =>
    let key := cs.takeWhile isWord
    if c = '{' ∧ key ≠ [] ∧ (cs.dropWhile isWord).head? = some '}' then
      .key (String.ofList key) :: tokensFrom isWord (key.length + 1) cs
    else
      .letter c :: tokensFrom isWord 0 cs

def tokens (isWord : Char → Bool) (template : String) : List Token :=
  tokensFrom isWord 0 template.toList

def Token.key? : Token → Option String
  | letter _ => none
  | key k    => some k

-- The keys in the order in which they first appear.
def keys (isWord : Char → Bool) (template : String) : List String :=
  ((tokens isWord template).filterMap Token.key?).eraseDups

def Token.text (value : String → List Char) : Token → List Char
  | letter c => [c]
  | key k    => value k

-- All placeholders at once, each by the value of its key.
def render (value : String → List Char) (ts : List Token) : List Char :=
  ts.flatMap (Token.text value)

-- A key without a value keeps its placeholder.
def assigned (pairs : List (String × String)) (key : String) : List Char :=
  match pairs.lookup key with
  | some replacement => replacement.toList
  | none             => placeholder key

def fillAtOnce (isWord : Char → Bool) (template : String) (pairs : List (String × String)) : List Char :=
  render (assigned pairs) (tokens isWord template)

-- One name for each choice of values.
def expandAtOnce (isWord : Char → Bool) (template : String) (subs : Substitutions) : List String :=
  (product ((keys isWord template).map (replacements subs))).map fun combo =>
    String.ofList <| fillAtOnce isWord template ((keys isWord template).zip combo)

def occurrences (needle : List Char) : List Char → Nat
  | []      => 0
  | c :: cs => (if needle.isPrefixOf (c :: cs) then 1 else 0) + occurrences needle cs

-- When a key is replaced, its placeholder is not in the text but where it is in the template, or is replaced
-- by itself.
def Clean (isWord : Char → Bool) (template : String) (pairs : List (String × String)) : Prop :=
  ∀ done key replacement rest, pairs = done ++ (key, replacement) :: rest →
    replacement.toList = placeholder key ∨
      occurrences (placeholder key) (fillAtOnce isWord template done) =
        (tokens isWord template).count (.key key)

section Replacing

variable {needle replacement xs s : List Char} {n : Nat} {k : String}

theorem replaceFrom_skip (needle replacement : List Char) (n : Nat) (s : List Char) :
    replaceFrom needle replacement n s = replaceFrom needle replacement 0 (s.drop n) := by
  induction s generalizing n with
  | nil          => simp [replaceFrom]
  | cons c cs hi =>
    cases n with
    | zero   => rfl
    | succ n => exact hi n

theorem occurrences_le_append (needle xs s : List Char) : occurrences needle s ≤ occurrences needle (xs ++ s) := by
  induction xs with
  | nil          => exact Nat.le_refl _
  | cons x xs hi =>
    rw [List.cons_append, occurrences]
    omega

-- What no occurrence starts in stays.
theorem replaceFrom_append (h : occurrences needle (xs ++ s) = occurrences needle s) :
    replaceFrom needle replacement 0 (xs ++ s) = xs ++ replaceFrom needle replacement 0 s := by
  induction xs with
  | nil          => rfl
  | cons x xs hi =>
    have hle := occurrences_le_append needle xs s
    rw [List.cons_append, occurrences] at h
    rw [List.cons_append, replaceFrom]
    split
    case isTrue hp =>
      rw [if_pos hp] at h
      omega
    case isFalse hp =>
      rw [if_neg hp, Nat.zero_add] at h
      rw [hi h]
      rfl

theorem occurrences_append_of_ne (h : ∀ x ∈ xs, x ≠ '{') (s : List Char) :
    occurrences (placeholder k) (xs ++ s) = occurrences (placeholder k) s := by
  induction xs with
  | nil          => rfl
  | cons x xs hi =>
    have ⟨hx, hxs⟩ := List.forall_mem_cons.mp h
    have hp : ¬(placeholder k).isPrefixOf (x :: (xs ++ s)) := by simp [placeholder, hx.symm]
    rw [List.cons_append, occurrences, if_neg hp, Nat.zero_add, hi hxs]

theorem placeholder_append (k : String) (s : List Char) :
    placeholder k ++ s = '{' :: ((k.toList ++ ['}']) ++ s) :=
  rfl

theorem isPrefixOf_placeholder (k : String) (s : List Char) :
    (placeholder k).isPrefixOf ('{' :: ((k.toList ++ ['}']) ++ s)) :=
  List.isPrefixOf_iff_prefix.mpr <| List.prefix_append ..

-- A placeholder does not overlap with another one.
theorem occurrences_placeholder (hk : '{' ∉ k.toList) (s : List Char) :
    occurrences (placeholder k) (placeholder k ++ s) = 1 + occurrences (placeholder k) s := by
  have hb : ∀ x ∈ k.toList ++ ['}'], x ≠ '{' := by
    intro x hx
    rcases List.mem_append.mp hx with hx | hx
    · exact fun he => hk (he ▸ hx)
    · rw [List.mem_singleton.mp hx]
      decide
  rw [placeholder_append, occurrences, if_pos (isPrefixOf_placeholder k s), occurrences_append_of_ne hb]

theorem replaceFrom_placeholder (k : String) (replacement s : List Char) :
    replaceFrom (placeholder k) replacement 0 (placeholder k ++ s) =
      replacement ++ replaceFrom (placeholder k) replacement 0 s := by
  have hl : (placeholder k).length - 1 = (k.toList ++ ['}']).length := rfl
  rw [placeholder_append, replaceFrom, if_pos (isPrefixOf_placeholder k s), replaceFrom_skip, hl, List.drop_left]

theorem replaceFrom_self (hn : needle ≠ []) (s : List Char) : replaceFrom needle needle 0 s = s := by
  suffices h : ∀ n, replaceFrom needle needle n s = s.drop n from h 0
  induction s with
  | nil          => simp [replaceFrom]
  | cons c cs hi =>
    intro n
    cases n with
    | succ n => exact hi n
    | zero   =>
      rw [replaceFrom]
      split
      case isTrue hp =>
        have ⟨t, ht⟩ := List.isPrefixOf_iff_prefix.mp hp
        obtain ⟨d, ds, rfl⟩ := List.exists_cons_of_ne_nil hn
        cases ht
        rw [hi, List.length_cons, Nat.add_sub_cancel, List.append_eq, List.drop_left]
        rfl
      case isFalse => exact congrArg (c :: ·) (hi 0)

end Replacing

section Rendering

open Function

variable {value : String → List Char} {ts : List Token} {k : String}

theorem render_cons (value : String → List Char) (t : Token) (ts : List Token) :
    render value (t :: ts) = t.text value ++ render value ts :=
  List.flatMap_cons ..

theorem text_update {t : Token} (h : t ≠ .key k) (replacement : List Char) :
    t.text (update value k replacement) = t.text value := by
  cases t with
  | letter c => rfl
  | key k'   => exact update_of_ne (fun he => h (congrArg _ he)) ..

theorem count_le_occurrences (hk : '{' ∉ k.toList) (hv : value k = placeholder k) :
    ts.count (.key k) ≤ occurrences (placeholder k) (render value ts) := by
  induction ts with
  | nil          => exact Nat.zero_le _
  | cons t ts hi =>
    rw [render_cons]
    by_cases ht : t = .key k
    case pos =>
      rw [ht, List.count_cons_self, Token.text, hv, occurrences_placeholder hk]
      omega
    case neg =>
      rw [List.count_cons_of_ne ht]
      exact hi.trans (occurrences_le_append ..)

-- Replacing one key after the others fills it in if its placeholder is nowhere else.
theorem replaceFrom_render (hk : '{' ∉ k.toList) (hv : value k = placeholder k) (replacement : List Char)
    (h : occurrences (placeholder k) (render value ts) = ts.count (.key k)) :
    replaceFrom (placeholder k) replacement 0 (render value ts) = render (update value k replacement) ts := by
  induction ts with
  | nil          => rfl
  | cons t ts hi =>
    have hle : ts.count (.key k) ≤ occurrences (placeholder k) (render value ts) := count_le_occurrences hk hv
    rw [render_cons] at h
    rw [render_cons, render_cons]
    by_cases ht : t = .key k
    case pos =>
      rw [ht, List.count_cons_self, Token.text, hv, occurrences_placeholder hk] at h
      rw [ht, Token.text, hv, replaceFrom_placeholder, hi (by omega), Token.text, update_self]
    case neg =>
      rw [List.count_cons_of_ne ht] at h
      have hf := occurrences_le_append (placeholder k) (t.text value) (render value ts)
      rw [replaceFrom_append (by omega), hi (by omega), text_update ht]

end Rendering

section Tokens

variable {isWord : Char → Bool} {s xs : List Char}

-- A placeholder is a key and the closing brace behind it.
theorem eq_takeWhile_append (h : (s.dropWhile isWord).head? = some '}') :
    ∃ rest, s = (s.takeWhile isWord ++ ['}']) ++ rest ∧
      s.drop ((s.takeWhile isWord).length + 1) = rest := by
  have ⟨rest, hr⟩ : ∃ rest, s.dropWhile isWord = '}' :: rest := List.head?_eq_some_iff.mp h
  have hs : s = (s.takeWhile isWord ++ ['}']) ++ rest := by
    rw [List.append_assoc, List.singleton_append, ← hr, List.takeWhile_append_dropWhile]
  refine ⟨rest, hs, ?_⟩
  calc s.drop _
    _ = ((s.takeWhile isWord ++ ['}']) ++ rest).drop _ := congrArg _ hs
    _ = rest                                           := List.drop_left' (by simp)

theorem render_tokensFrom (n : Nat) : render placeholder (tokensFrom isWord n s) = s.drop n := by
  induction s generalizing n with
  | nil          => simp [tokensFrom, render]
  | cons c cs hi =>
    cases n with
    | succ n => exact hi n
    | zero   =>
      rw [tokensFrom]
      split
      case isTrue h =>
        have ⟨hc, _, hb⟩ := h
        have ⟨rest, hs, hd⟩ := eq_takeWhile_append hb
        rw [render_cons, hi, hd, hc]
        conv_rhs => rw [hs]
        simp [Token.text, placeholder]
      case isFalse => exact congrArg (c :: ·) (hi 0)

theorem templateKeys_append_of_ne (h : ∀ x ∈ xs, x ≠ '{') (s : List Char) :
    templateKeys isWord (xs ++ s) = templateKeys isWord s := by
  induction xs with
  | nil          => rfl
  | cons x xs hi =>
    have ⟨hx, hxs⟩ := List.forall_mem_cons.mp h
    rw [List.cons_append, templateKeys, if_neg fun hc => hx hc.left, hi hxs]

theorem filterMap_tokensFrom (hw : isWord '{' = false) (n : Nat) :
    (tokensFrom isWord n s).filterMap Token.key? = templateKeys isWord (s.drop n) := by
  induction s generalizing n with
  | nil          => simp [tokensFrom, templateKeys]
  | cons c cs hi =>
    cases n with
    | succ n => exact hi n
    | zero   =>
      rw [tokensFrom, List.drop_zero, templateKeys]
      split
      case isTrue h =>
        have ⟨rest, hs, hd⟩ := eq_takeWhile_append h.right.right
        have hb : ∀ x ∈ cs.takeWhile isWord ++ ['}'], x ≠ '{' := by
          intro x hx
          rcases List.mem_append.mp hx with hx | hx
          · rintro rfl
            exact absurd (List.mem_takeWhile_imp hx) (by simp [hw])
          · rw [List.mem_singleton.mp hx]
            decide
        have hk : templateKeys isWord cs = templateKeys isWord rest := by
          conv_lhs => rw [hs]
          exact templateKeys_append_of_ne hb rest
        rw [List.filterMap_cons, hi, hd, hk]
        rfl
      case isFalse => exact hi 0

theorem keys_eq (hw : isWord '{' = false) (template : String) :
    keys isWord template = (templateKeys isWord template.toList).eraseDups := by
  rw [keys, tokens, filterMap_tokensFrom hw, List.drop_zero]

theorem not_mem_of_mem_keys (hw : isWord '{' = false) {template k : String} (h : k ∈ keys isWord template) :
    '{' ∉ k.toList := by
  rw [keys_eq hw, List.mem_eraseDups] at h
  generalize template.toList = s at h
  induction s with
  | nil          => cases h
  | cons c cs hi =>
    rw [templateKeys] at h
    split at h
    case isTrue  =>
      cases h with
      | head     =>
        rw [String.toList_ofList]
        exact fun hm => absurd (List.mem_takeWhile_imp hm) (by simp [hw])
      | tail _ h => exact hi h
    case isFalse => exact hi h

theorem nodup_eraseDups {α : Type*} [DecidableEq α] : (xs : List α) → xs.eraseDups.Nodup
  | []      => .nil
  | x :: xs => by
    rw [List.eraseDups_cons]
    exact List.nodup_cons.mpr ⟨by simp, nodup_eraseDups _⟩
termination_by xs => xs.length
decreasing_by exact Nat.lt_succ_of_le (List.length_filter_le ..)

theorem nodup_keys (isWord : Char → Bool) (template : String) : (keys isWord template).Nodup :=
  nodup_eraseDups _

end Tokens

section Filling

open Function

variable {isWord : Char → Bool} {template key replacement : String} {done pairs : List (String × String)}

theorem lookup_of_not_mem (h : key ∉ done.map Prod.fst) : done.lookup key = none := by
  rw [List.lookup_eq_none_iff]
  intro p hp
  exact bne_iff_ne.mpr fun he => h (he ▸ List.mem_map_of_mem hp)

theorem assigned_of_not_mem (h : key ∉ done.map Prod.fst) : assigned done key = placeholder key := by
  rw [assigned, lookup_of_not_mem h]

theorem assigned_append (h : key ∉ done.map Prod.fst) :
    assigned (done ++ [(key, replacement)]) = update (assigned done) key replacement.toList := by
  funext k
  by_cases hk : k = key
  case pos =>
    subst hk
    rw [update_self, assigned, List.lookup_append, lookup_of_not_mem h]
    simp
  case neg =>
    have hb : (k == key) = false := beq_eq_false_iff_ne.mpr hk
    rw [update_of_ne hk, assigned, assigned, List.lookup_append, List.lookup_cons, hb]
    simp

-- Key by key, by induction on the keys that are left.
theorem foldl_fillAtOnce (hk : ∀ p ∈ pairs, '{' ∉ p.fst.toList) (hn : ((done ++ pairs).map Prod.fst).Nodup)
    (hc : Clean isWord template (done ++ pairs)) :
    pairs.foldl (fun s (key, replacement) => replaceFrom (placeholder key) replacement.toList 0 s)
        (fillAtOnce isWord template done) =
      fillAtOnce isWord template (done ++ pairs) := by
  induction pairs generalizing done with
  | nil           => rw [List.append_nil, List.foldl_nil]
  | cons p rest hi =>
    have ⟨key, replacement⟩ := p
    have ⟨hkey, hrest⟩ := List.forall_mem_cons.mp hk
    have happ : done ++ (key, replacement) :: rest = (done ++ [(key, replacement)]) ++ rest := by simp
    have hnot : key ∉ done.map Prod.fst := by
      rw [List.map_append, List.nodup_append] at hn
      exact fun hm => hn.right.right key hm key (.head _) rfl
    have hv := assigned_of_not_mem hnot
    have hstep : replaceFrom (placeholder key) replacement.toList 0 (fillAtOnce isWord template done) =
        fillAtOnce isWord template (done ++ [(key, replacement)]) := by
      rw [fillAtOnce, fillAtOnce, assigned_append hnot]
      rcases hc done key replacement rest rfl with hs | ho
      · rw [hs, ← hv, update_eq_self, hv]
        exact replaceFrom_self (List.cons_ne_nil _ _) _
      · exact replaceFrom_render hkey hv _ ho
    rw [happ] at hn hc ⊢
    exact (congrArg (rest.foldl _) hstep).trans (hi hrest hn hc)

theorem mem_product_iff {combo : List String} {xss : List (List String)} :
    combo ∈ product xss ↔ List.Forall₂ (· ∈ ·) combo xss := by
  induction xss generalizing combo with
  | nil            => simp [product]
  | cons xs xss hi => simp [product, hi, List.forall₂_cons_right_iff, eq_comm]

theorem product_eq_nil_iff {xss : List (List String)} : product xss = [] ↔ [] ∈ xss := by
  induction xss with
  | nil            => simp [product]
  | cons xs xss hi =>
    rw [List.mem_cons, ← hi, product, List.flatMap_eq_nil_iff]
    simp only [List.map_eq_nil_iff]
    cases xs with
    | nil       => simp
    | cons x xs => exact ⟨fun h => .inr (h x (.head _)), fun h _ _ => h.resolve_left nofun⟩

variable {subs : Substitutions}

-- Every choice of values is clean.
def AllClean (isWord : Char → Bool) (template : String) (subs : Substitutions) : Prop :=
  ∀ combo ∈ product ((keys isWord template).map (replacements subs)),
    Clean isWord template ((keys isWord template).zip combo)

theorem fillTemplate_eq (hw : isWord '{' = false) {combo : List String}
    (hl : combo.length = (keys isWord template).length)
    (hc : Clean isWord template ((keys isWord template).zip combo)) :
    fillTemplate template ((keys isWord template).zip combo) =
      String.ofList (fillAtOnce isWord template ((keys isWord template).zip combo)) := by
  have hstart : fillAtOnce isWord template [] = template.toList := by
    have hr : render placeholder (tokensFrom isWord 0 template.toList) = template.toList := render_tokensFrom 0
    exact hr
  have hn : (((keys isWord template).zip combo).map Prod.fst).Nodup := by
    rw [List.map_fst_zip (Nat.le_of_eq hl.symm)]
    exact nodup_keys ..
  have hf := @foldl_fillAtOnce _ _ [] _ (fun p hp => not_mem_of_mem_keys hw (List.of_mem_zip hp).left) hn hc
  rw [fillTemplate, ← hstart]
  exact congrArg String.ofList hf

theorem expandTemplate_eq_product (hw : isWord '{' = false) :
    expandTemplate isWord template subs = (product ((keys isWord template).map (replacements subs))).map fun combo =>
      fillTemplate template ((keys isWord template).zip combo) := by
  rw [expandTemplate, ← keys_eq hw]
  split
  case h_1 hk =>
    rw [hk]
    simp [product, fillTemplate]
  case h_2 => rfl

theorem expandTemplate_eq (hw : isWord '{' = false) (hc : AllClean isWord template subs) :
    expandTemplate isWord template subs = expandAtOnce isWord template subs := by
  rw [expandTemplate_eq_product hw, expandAtOnce]
  refine List.map_congr_left fun combo hm => fillTemplate_eq hw ?_ (hc combo hm)
  have hl := (mem_product_iff.mp hm).length_eq
  rwa [List.length_map] at hl

theorem expandTemplate_eq_nil_iff (hw : isWord '{' = false) :
    expandTemplate isWord template subs = [] ↔ ∃ key ∈ keys isWord template, replacements subs key = [] := by
  rw [expandTemplate_eq_product hw, List.map_eq_nil_iff, product_eq_nil_iff, List.mem_map]

theorem isSource_isSome_iff {results : List String} : (isSource template results).isSome ↔ results ≠ [] := by
  rw [isSource]
  split
  case isTrue h  => simpa using List.ne_nil_of_length_pos (Nat.lt_of_succ_lt h)
  case isFalse   => cases results <;> simp

-- The reader of OpenTitan plans needs a name from each template.
theorem parseTestpoint_isSome_iff {raw : RawTestpoint} :
    (parseTestpoint isWord subs raw).isSome ↔
      raw.tests = ["N/A"] ∨ ∀ template ∈ raw.tests, expandTemplate isWord template subs ≠ [] := by
  rw [parseTestpoint]
  split
  case isTrue h  => simp [h]
  case isFalse h =>
    rw [or_iff_right h]
    constructor
    case mp =>
      intro hs template hm
      have ⟨tp, htp⟩ := Option.isSome_iff_exists.mp hs
      have ⟨sources, hsources, _⟩ := Option.bind_eq_some_iff.mp htp
      have ⟨_, _, he⟩ := exists_mem_of_mapM hsources hm
      have ⟨b, hb, _⟩ := Option.bind_eq_some_iff.mp he
      exact isSource_isSome_iff.mp (Option.isSome_iff_exists.mpr ⟨b, hb⟩)
    case mpr =>
      intro ht
      have hall : ∀ template ∈ raw.tests, ∃ y, (do
          return (template, ← isSource template (expandTemplate isWord template subs))) = some y := by
        intro template hm
        have hs : (isSource template (expandTemplate isWord template subs)).isSome :=
          isSource_isSome_iff.mpr (ht template hm)
        have ⟨b, hb⟩ := Option.isSome_iff_exists.mp hs
        exact ⟨(template, b), by rw [hb]; rfl⟩
      have ⟨sources, hs⟩ := exists_mapM hall
      rw [hs]
      rfl

-- A clean template gives what it says, and a testpoint is built from it, if and only if no key in it is
-- without a value to choose.
theorem expands_iff (hw : isWord '{' = false) (hc : AllClean isWord template subs) :
    (expandTemplate isWord template subs = expandAtOnce isWord template subs ∧
        ∀ raw : RawTestpoint, raw.tests = [template] → (parseTestpoint isWord subs raw).isSome) ↔
      ∀ key ∈ keys isWord template, replacements subs key ≠ [] := by
  have hne : expandTemplate isWord template subs ≠ [] ↔ ∀ key ∈ keys isWord template, replacements subs key ≠ [] := by
    rw [Ne, expandTemplate_eq_nil_iff hw]
    simp
  have hna : expandTemplate isWord "N/A" subs ≠ [] := by
    have hk : templateKeys isWord "N/A".toList = [] := by simp [templateKeys]
    rw [expandTemplate, hk]
    exact List.cons_ne_nil "N/A" []
  rw [and_iff_right (expandTemplate_eq hw hc), ← hne]
  simp only [parseTestpoint_isSome_iff]
  constructor
  · intro h
    rcases h { tests := [template] } rfl with he | ht
    · cases he
      exact hna
    · exact ht template (.head _)
  · intro h raw hr
    rw [hr]
    exact .inr fun t ht => List.mem_singleton.mp ht ▸ h

-- A baud rate of a list.
def baudSubs : Substitutions :=
  .ofList [("b", .list ["1", "2"])]

theorem expands_iff_baud :
    (expandTemplate Char.isAlphanum "u\x7bb\x7d" baudSubs = expandAtOnce Char.isAlphanum "u\x7bb\x7d" baudSubs ∧
        ∀ raw : RawTestpoint, raw.tests = ["u\x7bb\x7d"] → (parseTestpoint Char.isAlphanum baudSubs raw).isSome) ↔
      ∀ key ∈ keys Char.isAlphanum "u\x7bb\x7d", replacements baudSubs key ≠ [] := by
  have hk : keys Char.isAlphanum "u\x7bb\x7d" = ["b"] := by decide
  refine expands_iff (by decide) fun combo hm => ?_
  rw [hk] at hm ⊢
  have hl : combo.length = 1 := (mem_product_iff.mp hm).length_eq
  have ⟨r, hr⟩ := List.length_eq_one_iff.mp hl
  subst hr
  rintro (_ | ⟨_, done⟩) key replacement rest he
  · cases he
    exact .inr (by decide)
  · cases done <;> cases he

-- The value of one key is taken for the placeholder of another one, and without values to choose from there is
-- no testpoint.
theorem values_expanded_again :
    expandTemplate Char.isAlphanum "\x7ba\x7d\x7bb\x7d" (.ofList [("a", .scalar "\x7bb\x7d"), ("b", .scalar "x")]) ≠
        expandAtOnce Char.isAlphanum "\x7ba\x7d\x7bb\x7d" (.ofList [("a", .scalar "\x7bb\x7d"), ("b", .scalar "x")]) ∧
      parseTestpoint Char.isAlphanum (.ofList [("b", .list [])]) { tests := ["\x7bb\x7d"] } = none := by
  constructor <;> decide

end Filling

end Template
