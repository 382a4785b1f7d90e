import Covsight.Ncdb.StringTable
import Covsight.NcdbC.Theorems.Issues
import Covsight.NcdbTs.IssueCodecs

-- The three languages read each other's tables of strings.

open StringTable

-- What two lists have in common if their elements stand for the same things.
theorem forall₂_exists_iff {α β γ : Type*} {f : γ → α} {g : γ → β} {xs : List α} {ys : List β} :
    List.Forall₂ (fun x y => ∃ z, x = f z ∧ y = g z) xs ys ↔ ∃ zs : List γ, xs = zs.map f ∧ ys = zs.map g := by
  constructor
  · intro h
    induction h with
    | nil            => exact ⟨[], rfl, rfl⟩
    | cons hz _ hi   =>
      obtain ⟨z, rfl, rfl⟩ := hz
      obtain ⟨zs, rfl, rfl⟩ := hi
      exact ⟨z :: zs, rfl, rfl⟩
  · rintro ⟨zs, rfl, rfl⟩
    induction zs with
    | nil          => exact .nil
    | cons z zs hi => exact .cons ⟨z, rfl, rfl⟩ hi

theorem exists_eq_map_iff {α γ : Type*} {f : γ → α} {ok : γ → Prop} {xs : List α} :
    (∃ zs : List γ, xs = zs.map f ∧ ∀ z ∈ zs, ok z) ↔ ∀ x ∈ xs, ∃ z, x = f z ∧ ok z := by
  constructor
  · rintro ⟨zs, rfl, h⟩ x hx
    have ⟨z, hz, he⟩ := List.mem_map.mp hx
    exact ⟨z, he.symm, h z hz⟩
  · intro h
    induction xs with
    | nil          => exact ⟨[], rfl, nofun⟩
    | cons x xs hi =>
      rw [List.forall_mem_cons] at h
      obtain ⟨⟨z, rfl, hz⟩, hxs⟩ := h
      obtain ⟨zs, rfl, hzs⟩ := hi hxs
      exact ⟨z :: zs, rfl, List.forall_mem_cons.mpr ⟨hz, hzs⟩⟩

namespace NcdbLanguage

-- A text as a string of the language.
def ofText : (l : NcdbLanguage) → String → l.Str
  | python     => id
  | c          => utf8
  | typescript => JsString.ofString

-- The strings of two languages are one text.
def SameText (l l' : NcdbLanguage) (s : l.Str) (s' : l'.Str) : Prop :=
  ∃ t, s = l.ofText t ∧ s' = l'.ofText t

def ZeroFree (l : NcdbLanguage) (ss : List l.Str) : Prop :=
  ∀ s ∈ ss, ∀ t, s = l.ofText t → 0 ∉ utf8 t

-- Every other language reads the table that was written, as the same function of the index. For C this is
-- about strings without a zero byte.
def Understood (p : StringsPlatform) (data : ByteBuffer) (l : NcdbLanguage) (ss : List l.Str) : Prop :=
  ∀ l', l' ≠ l → (l' = c → ZeroFree l ss) →
    ∃ tab, read p data l' = some tab ∧ List.Forall₂ (SameText l l') (table l ss) tab

-- A string as it is added.
def added : (l : NcdbLanguage) → l.Str → l.Str
  | python     => id
  | c          => cString
  | typescript => id

-- The strings are texts, and there is no byte order mark at the front of one that TypeScript has to read.
def Plain (l : NcdbLanguage) (ss : List l.Str) : Prop :=
  ∀ s ∈ ss, ∃ t : String, added l s = l.ofText t ∧ (l ≠ typescript → t.toList.head? ≠ some '\uFEFF')

theorem ofText_injective (l : NcdbLanguage) : Function.Injective l.ofText := by
  cases l with
  | python     => exact Function.injective_id
  | c          => exact utf8_injective
  | typescript => exact JsString.ofString_injective

end NcdbLanguage

-- Tables of texts

section Texts

variable {ts : List String}

theorem map_textEncode_ofString (ts : List String) : (ts.map JsString.ofString).map textEncode = ts := by
  have he (t : String) : textEncode (.ofString t) = t := by
    simp [textEncode, JsString.ofString, JsChar.toChar, Function.comp_def]
  simp [List.map_map, Function.comp_def, he]

theorem encode_map_ofString : TsStringTable.encode (ts.map .ofString) = serialize ts := by
  have hs : (ts.map JsString.ofString).flatMap (fun s => encode (textEncode s)) = ts.flatMap encode := by
    rw [← List.flatMap_map textEncode, map_textEncode_ofString]
  rw [TsStringTable.encode, hs, List.length_map]
  rfl

-- Nothing wraps around where all of the table fits a buffer.
theorem length_le_ncdbStringsSerialize (tab : List CString) :
    tab.length ≤ (ncdbStringsSerialize tab).length ∧ ∀ s ∈ tab, s.length ≤ (ncdbStringsSerialize tab).length := by
  have hf : tab.length ≤ (tab.flatMap fun s => encodeUInt64 (.ofNat s.length) ++ s).length :=
    length_le_flatMap fun s _ => List.append_ne_nil_of_left_ne_nil (encodeUInt64_ne_nil (.ofNat s.length)) s
  rw [ncdbStringsSerialize, List.length_append]
  refine ⟨Nat.le_add_left_of_le hf, fun s hs => Nat.le_add_left_of_le ?_⟩
  have hm := (List.sublist_flatten_of_mem (List.mem_map_of_mem (f := fun s => encodeUInt64 (.ofNat s.length) ++ s) hs)).length_le
  exact ((List.suffix_append _ s).length_le).trans hm

theorem ncdbStringsOf_eq (ss : List CString) : ncdbStringsOf ss = internAll (ss.map cString) := by
  rw [← foldl_stringsAdd, List.foldl_map, ncdbStringsOf]

theorem mem_ncdbStringsOf_iff {ss : List CString} {s : CString} : s ∈ ncdbStringsOf ss ↔ s ∈ ss.map cString := by
  rw [ncdbStringsOf_eq, mem_internAll_iff]

theorem ncdbStringsSerialize_map_utf8 (h : (ncdbStringsSerialize (ts.map utf8)).length < 2 ^ 63) :
    ncdbStringsSerialize (ts.map utf8) = serialize ts := by
  have ⟨hc, hs⟩ := length_le_ncdbStringsSerialize (ts.map utf8)
  have hto {n : Nat} (hn : n ≤ (ncdbStringsSerialize (ts.map utf8)).length) : encodeUInt64 (.ofNat n) = encodeVarint n := by
    rw [encodeUInt64, UInt64.toNat_ofNat_of_lt']
    change n < 2 ^ 64
    omega
  rw [ncdbStringsSerialize, hto hc, List.length_map, List.flatMap_map, serialize]
  refine congrArg (_ ++ ·) (List.flatMap_congr fun t ht => ?_)
  rw [hto (hs _ (List.mem_map_of_mem ht))]
  rfl

end Texts

-- Reading a table of texts

section Reading

variable {p : StringsPlatform} {data : ByteBuffer} {ts : List String}

theorem read_python (hn : ts.Nodup) (hd : data.bytes = serialize ts) : NcdbLanguage.python.read p data = some ts := by
  have h := fromBytes_serialize hn []
  rwa [List.append_nil, ← hd] at h

theorem readFrom_serialize (repair : List UInt8 → JsString) (ts : List String) (rest : List UInt8) :
    TsStringTable.readFrom repair (serialize ts ++ rest) = some (internAll (ts.map textDecode), rest) := by
  have hs (t : String) (rest : List UInt8) :
      TsStringTable.readString repair (encode t ++ rest) = some (textDecode t, rest) := by
    rw [encode, List.append_assoc]
    simp only [TsStringTable.readString, decodeVarint_encodeVarint, Option.bind_eq_bind, Option.bind_some,
      List.take_left, List.drop_left, TsStringTable.decode, utf8Decode_utf8]
    rfl
  have hm := decodeMany_map_flatMap (fun t (_ : t ∈ ts) => hs t) rest
  rw [serialize, List.append_assoc, TsStringTable.readFrom]
  simp only [decodeVarint_encodeVarint, Option.bind_eq_bind, Option.bind_some, hm]
  rfl

theorem read_typescript (hd : data.bytes = serialize ts) :
    NcdbLanguage.typescript.read p data = some (internAll (ts.map textDecode)) := by
  have h := readFrom_serialize p.repair ts []
  rw [List.append_nil, ← hd] at h
  exact congrArg (Option.map Prod.fst) h

theorem read_c (hp : ∀ i, p.memory.stores i) (hm : ∀ n, p.malloc n) (hn : ts.Nodup) (hz : ∀ t ∈ ts, 0 ∉ utf8 t)
    (hd : data.bytes = serialize ts) : NcdbLanguage.c.read p data = some (ts.map utf8) := by
  have hsmall : (serialize ts).length < 2 ^ 63 := hd ▸ data.small
  have hcount : ts.length ≤ (serialize ts).length :=
    (length_le_flatMap fun t _ => List.append_ne_nil_of_left_ne_nil (varintBytes_ne_nil _ _) (utf8 t)).trans
      (List.suffix_append ..).length_le
  have hu : Uncut ts := ⟨hz, fun t ht => by have := length_utf8_le ht; omega, by omega⟩
  have hnext : (⟨data, p.malloc, true⟩ : Reading).HasNext {} (serialize ts) :=
    ⟨Nat.zero_le _, by rw [← hd]; exact List.prefix_rfl⟩
  have ⟨_, hr, _⟩ := reads_stringsDeserialize hp hn hu _ _ hm hnext
  simp only [NcdbLanguage.read, hr]
  rfl

end Reading

namespace NcdbLanguage

variable {p : StringsPlatform} {data : ByteBuffer} {l : NcdbLanguage} {ss : List l.Str} {ts : List String}

-- What is in a table, and what becomes of texts

theorem added_of_ne_c (h : l ≠ c) (ss : List l.Str) : ss.map (added l) = ss := by
  cases l with
  | c                   => exact absurd rfl h
  | python | typescript => exact List.map_id ss

theorem mem_table_iff {s : l.Str} :
    s ∈ table l ss ↔ s ∈ ss.map (added l) ∨ l = typescript ∧ s = l.ofText "" := by
  cases l with
  | python     =>
    rw [added_of_ne_c (l := python) nofun, or_iff_left fun h => nomatch h.left]
    exact mem_internAll_iff (α := String)
  | c          =>
    rw [or_iff_left fun h => nomatch h.left]
    exact mem_ncdbStringsOf_iff
  | typescript =>
    rw [added_of_ne_c (l := typescript) nofun, or_comm, and_iff_right rfl]
    exact (mem_internAll_iff (α := JsString)).trans List.mem_cons

theorem zeroFree_of_mem_table {t : String} (h : ZeroFree l ss) (hl : l ≠ c) (ht : l.ofText t ∈ table l ss) :
    0 ∉ utf8 t := by
  rcases mem_table_iff.mp ht with hm | ⟨_, he⟩
  · exact h _ (added_of_ne_c hl ss ▸ hm) t rfl
  · rw [l.ofText_injective he]
    exact List.not_mem_nil

theorem nodup_table (l : NcdbLanguage) (ss : List l.Str) : (table l ss).Nodup := by
  cases l with
  | python     => exact nodup_internAll (α := String) ss
  | c          =>
    have h : (ncdbStringsOf ss).Nodup := ncdbStringsOf_eq ss ▸ nodup_internAll _
    exact h
  | typescript => exact nodup_internAll (α := JsString) _

theorem serialize_of_texts (h : table l ss = ts.map l.ofText) (hd : data.bytes = l.serialize (table l ss)) :
    data.bytes = StringTable.serialize ts := by
  rw [h] at hd
  cases l with
  | python     =>
    rw [hd]
    exact congrArg StringTable.serialize (List.map_id ts)
  | c          =>
    have hb : data.bytes = ncdbStringsSerialize (ts.map utf8) := hd
    exact hb.trans (ncdbStringsSerialize_map_utf8 (hb ▸ data.small))
  | typescript => exact hd.trans encode_map_ofString

-- Some other language reads every table.
theorem Understood.texts (h : Understood p data l ss) : ∃ ts : List String, table l ss = ts.map l.ofText := by
  have ⟨l', hl, hc⟩ : ∃ l', l' ≠ l ∧ l' ≠ c := by
    cases l with
    | python     => exact ⟨typescript, nofun, nofun⟩
    | c          => exact ⟨typescript, nofun, nofun⟩
    | typescript => exact ⟨python, nofun, nofun⟩
  have ⟨_, _, hs⟩ := h l' hl fun he => absurd he hc
  have ⟨ts, ht, _⟩ := forall₂_exists_iff.mp hs
  exact ⟨ts, ht⟩

theorem understood_iff_of_texts (hp : ∀ i, p.memory.stores i) (hm : ∀ n, p.malloc n)
    (ht : table l ss = ts.map l.ofText) (hd : data.bytes = l.serialize (table l ss)) :
    Understood p data l ss ↔ (l ≠ typescript → ∀ t ∈ ts, t.toList.head? ≠ some '\uFEFF') := by
  have hb := serialize_of_texts ht hd
  have hn : ts.Nodup := .of_map _ (ht ▸ nodup_table l ss)
  have hread := read_typescript (p := p) hb
  have hkeep : (∀ i < ts.length, (internAll (ts.map textDecode))[i]? = ts[i]?.map JsString.ofString) ↔
      ∀ t ∈ ts, t.toList.head? ≠ some '\uFEFF' := by
    rw [getElem?_internAll_map_iff (hn.map JsString.ofString_injective)]
    exact forall₂_congr fun _ _ => JsString.textDecode_eq_ofString_iff
  constructor
  case mp =>
    intro h hl
    have ⟨tab, hr, hs⟩ := h typescript hl.symm nofun
    obtain ⟨ts', ht', rfl⟩ := forall₂_exists_iff.mp hs
    obtain rfl : ts = ts' := List.map_injective_iff.mpr l.ofText_injective (ht.symm.trans ht')
    refine hkeep.mp fun i _ => ?_
    rw [Option.some.inj (hread.symm.trans hr), ← List.getElem?_map]
    rfl
  case mpr =>
    intro h l' hl hc
    rw [ht]
    cases l' with
    | python     => exact ⟨ts, read_python hn hb, forall₂_exists_iff.mpr ⟨ts, rfl, (List.map_id ts).symm⟩⟩
    | c          =>
      have hz : ∀ t ∈ ts, 0 ∉ utf8 t := fun t hm =>
        zeroFree_of_mem_table (hc rfl) hl.symm (ht ▸ List.mem_map_of_mem hm)
      exact ⟨_, read_c hp hm hn hz hb, forall₂_exists_iff.mpr ⟨ts, rfl, rfl⟩⟩
    | typescript =>
      have hf : ∀ t ∈ ts, textDecode t = .ofString t :=
        fun t hm => JsString.textDecode_eq_ofString_iff.mpr (h hl.symm t hm)
      rw [List.map_congr_left hf, internAll_of_nodup (hn.map JsString.ofString_injective)] at hread
      exact ⟨_, hread, forall₂_exists_iff.mpr ⟨ts, rfl, rfl⟩⟩

-- A table is of texts if all that is added is. TypeScript adds the empty string by itself.
theorem exists_texts_iff {ok : String → Prop} (hok : l = typescript → ∀ t, ok t) :
    (∃ ts : List String, table l ss = ts.map l.ofText ∧ ∀ t ∈ ts, ok t) ↔
      ∀ s ∈ ss, ∃ t, added l s = l.ofText t ∧ ok t := by
  rw [exists_eq_map_iff]
  constructor
  case mp  => exact fun h s hs => h _ <| mem_table_iff.mpr <| .inl <| List.mem_map_of_mem hs
  case mpr =>
    intro h s hm
    rcases mem_table_iff.mp hm with hm | ⟨hl, he⟩
    · have ⟨s', hs', he⟩ := List.mem_map.mp hm
      exact he ▸ h s' hs'
    · exact ⟨"", he, hok hl ""⟩

-- The other languages understand a table if and only if it is of texts, of which none has a byte order mark
-- in front that TypeScript takes off.
theorem understood_iff (hp : ∀ i, p.memory.stores i) (hm : ∀ n, p.malloc n)
    (hd : data.bytes = l.serialize (table l ss)) : Understood p data l ss ↔ Plain l ss := by
  rw [Plain, ← exists_texts_iff fun hl _ hn => absurd hl hn]
  constructor
  case mp =>
    intro h
    have ⟨ts, ht⟩ := h.texts
    exact ⟨ts, ht, fun t hmt hl => (understood_iff_of_texts hp hm ht hd).mp h hl t hmt⟩
  case mpr =>
    intro ⟨ts, ht, h⟩
    exact (understood_iff_of_texts hp hm ht hd).mpr fun hl t hmt => h t hmt hl

-- All memory is there, and each byte is replaced where the bytes are no text.
def roomy : StringsPlatform where
  memory := ⟨fun _ => true, fun _ => true⟩
  malloc := fun _ => true
  repair := List.map fun _ => .char '\uFFFD'

theorem understood_iff_ab :
    Understood roomy ⟨StringTable.serialize ["", "a", "b"], by decide⟩ python ["", "a", "b", "a"] ↔
      Plain python ["", "a", "b", "a"] :=
  understood_iff (l := python) (fun _ => rfl) (fun _ => rfl) (by decide)

-- The second string is read as the first one, and the third one gets its number.
theorem mark_lost :
    read roomy ⟨StringTable.serialize ["", "\uFEFF", "a"], by decide⟩ typescript = some [[], [.char 'a']] ∧
      ¬Understood roomy ⟨StringTable.serialize ["", "\uFEFF", "a"], by decide⟩ python ["", "\uFEFF", "a"] := by
  constructor
  · have ht : internAll (["", "\uFEFF", "a"].map textDecode) = [[], [.char 'a']] := by decide
    exact (read_typescript rfl).trans (congrArg some ht)
  · intro h
    have hn : internAll ["", "\uFEFF", "a"] = ["", "\uFEFF", "a"] := by decide
    have ht : table python ["", "\uFEFF", "a"] = ["", "\uFEFF", "a"].map python.ofText := hn
    have hs := (understood_iff_of_texts (fun _ => rfl) (fun _ => rfl) ht (by decide)).mp h nofun "\uFEFF"
    exact hs (.tail _ (.head _)) (by decide)

end NcdbLanguage
