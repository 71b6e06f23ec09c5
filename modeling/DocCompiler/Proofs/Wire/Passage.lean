import DocCompiler.Proofs.Json.Canonical
import DocCompiler.Proofs.Json.ReadBack
import DocCompiler.Wire.Variants

/-! What comes out at the far end of a codec. A value is carried as another one if its text is
read back and the canonical form that the text stands for decodes to that one; it is carried as
nothing if the decoding fails. Fields are carried one by one, under names that differ. -/

namespace DocCompiler.Wire

open Json (Readable)

variable {α β σ : Type}

/-- The codec carries `a` as `b`, nested in at most `128 - depth` lists and objects. -/
structure Codec.Carries (c : Codec α) (depth : Nat) (a : α) (b : Option α) : Prop where
  readable : Readable depth (c.encode a)
  decode : ∀ origin, (c.decode origin (c.encode a).canonical).toOption = b

/-- The fields, which have these names, carry what they write of `s` as `b`. -/
structure Fields.Carries (x : Fields σ α) (depth : Nat) (names : List String) (s : σ)
    (b : Option α) : Prop where
  named : ∀ e ∈ x.write s, e.1 ∈ names
  nodup : ((x.write s).map (·.1)).Nodup
  readable : ∀ e ∈ x.write s, Readable depth e.2
  decode : ∀ origin entries index,
    (∀ name ∈ names, binding? name entries = (binding? name (x.write s)).map Json.canonical) →
      (x.decode origin (.named entries) index).toOption = b

namespace Fields

variable {names : List String} {s : σ} {depth : Nat} {name : String}

theorem toOption_seq (f : Fields σ (α → β)) (x : Fields σ α) (origin : Origin) (supply : Supply)
    (index : Nat) : ((f <*> x).decode origin supply index).toOption =
      (f.decode origin supply index).toOption.bind fun g =>
        (x.decode origin supply (index + f.slots.length)).toOption.map g := by
  show ((f.followedBy x).decode origin supply index).toOption = _
  simp only [followedBy]
  cases f.decode origin supply index <;>
    cases x.decode origin supply (index + f.slots.length) <;> rfl

theorem toOption_run (x : Fields σ α) (title : String) (origin : Origin) (supply : Supply) :
    (x.run title origin supply).toOption = (x.decode origin supply 0).toOption := by
  simp only [Fields.run]
  cases x.decode origin supply 0 with
  | ok a => rfl
  | error e => cases e <;> cases supply <;> rfl

theorem Carries.pure (a : α) : (Pure.pure a : Fields σ α).Carries depth [] s (some a) where
  named _ he := nomatch he
  nodup := List.Pairwise.nil
  readable _ he := nomatch he
  decode _ _ _ _ := rfl

theorem Carries.seq {f : Fields σ (α → β)} {x : Fields σ α} {others : List String}
    {g : Option (α → β)} {b : Option α} (hf : f.Carries depth names s g)
    (hx : x.Carries depth others s b) (hdisjoint : ∀ n ∈ others, n ∉ names) :
    (f <*> x).Carries depth (names ++ others) s (g.bind fun g => b.map g) where
  named e he := by
    rcases List.mem_append.1 he with he | he
    · exact List.mem_append_left _ (hf.named e he)
    · exact List.mem_append_right _ (hx.named e he)
  nodup := by
    show ((f.write s ++ x.write s).map (·.1)).Nodup
    rw [List.map_append, List.nodup_append]
    refine ⟨hf.nodup, hx.nodup, ?_⟩
    intro n hn m hm heq
    obtain ⟨e, he, rfl⟩ := List.mem_map.1 hn
    obtain ⟨e', he', rfl⟩ := List.mem_map.1 hm
    exact hdisjoint _ (hx.named e' he') (heq ▸ hf.named e he)
  readable e he := by
    rcases List.mem_append.1 he with he | he
    · exact hf.readable e he
    · exact hx.readable e he
  decode origin entries index h := by
    have happend (n : String) :
        binding? n ((f <*> x).write s) = (binding? n (f.write s)).or (binding? n (x.write s)) :=
      binding?_append
    have hleft := hf.decode origin entries index fun n hn => by
      have habsent : binding? n (x.write s) = none := binding?_eq_none.2 fun e he heq =>
        hdisjoint n (by rw [← heq]; exact hx.named e he) hn
      rw [h n (List.mem_append_left _ hn), happend, habsent, Option.or_none]
    have hright := hx.decode origin entries (index + f.slots.length) fun n hn => by
      have habsent : binding? n (f.write s) = none := binding?_eq_none.2 fun e he heq =>
        hdisjoint n hn (by rw [← heq]; exact hf.named e he)
      rw [h n (List.mem_append_right _ hn), happend, habsent, Option.none_or]
    rw [toOption_seq, hleft, hright]

theorem Carries.congr {x : Fields σ α} {b b' : Option α} (hx : x.Carries depth names s b)
    (hb : b = b') : x.Carries depth names s b' := hb ▸ hx

theorem Carries.map {x : Fields σ α} {b : Option α} (g : α → β) (hx : x.Carries depth names s b) :
    (g <$> x).Carries depth names s (b.map g) :=
  (Carries.pure g).seq hx fun _ _ => List.not_mem_nil

theorem Carries.field {c : Codec β} {absent : Option β} {get : σ → β} {b : Option β}
    (h : c.Carries depth (get s) b) : (Fields.field name c absent get).Carries depth [name] s b where
  named e he := by rw [List.mem_singleton.1 he]; exact .head _
  nodup := List.nodup_cons.2 ⟨List.not_mem_nil, .nil⟩
  readable e he := by rw [List.mem_singleton.1 he]; exact h.readable
  decode origin entries index hsame := by
    have hget : (Supply.named entries).get? index name = some (c.encode (get s)).canonical := by
      have hbound := hsame name (.head _)
      rwa [Fields.field, binding?_cons, if_pos rfl] at hbound
    simp only [Fields.field, hget, ← h.decode origin]
    cases c.decode origin (c.encode (get s)).canonical <;> rfl

section Optional

variable {c : Codec β} {get : σ → Option β}

theorem write_optional (s : σ) : (Fields.optional name c get).write s =
    ((get s).map fun b => (name, c.encode b)).toList := rfl

theorem Carries.optional_none (h : get s = none) :
    (Fields.optional name c get).Carries depth [name] s (some none) := by
  have hwrite : (Fields.optional name c get).write s = [] := by rw [write_optional, h]; rfl
  refine ⟨by simp [hwrite], by simp [hwrite], by simp [hwrite],
    fun origin entries index hsame => ?_⟩
  have hget : (Supply.named entries).get? index name = none := by
    have hbound := hsame name (.head _)
    rwa [hwrite] at hbound
  simp only [Fields.optional, Fields.field, hget]
  rfl

theorem Carries.optional_written {b : β} {o : Option (Option β)} (h : get s = some b)
    (hread : Readable depth (c.encode b))
    (hdecode : ∀ origin, (c.option.decode origin (c.encode b).canonical).toOption = o) :
    (Fields.optional name c get).Carries depth [name] s o := by
  have hwrite : (Fields.optional name c get).write s = [(name, c.encode b)] := by
    rw [write_optional, h]
    rfl
  refine ⟨fun e he => ?_, by simp [hwrite], fun e he => ?_, fun origin entries index hsame => ?_⟩
  · rw [hwrite] at he
    rw [List.mem_singleton.1 he]
    exact .head _
  · rw [hwrite] at he
    rw [List.mem_singleton.1 he]
    exact hread
  · have hget : (Supply.named entries).get? index name = some (c.encode b).canonical := by
      have hbound := hsame name (.head _)
      rwa [hwrite, binding?_cons, if_pos rfl] at hbound
    simp only [Fields.optional, Fields.field, hget, ← hdecode origin]
    cases c.option.decode origin (c.encode b).canonical <;> rfl

theorem canonical_ne_null {v : Json} (h : v ≠ .null) : v.canonical ≠ .null := by
  cases v <;> simp_all [Json.canonical, Json.ofEntries, Json.object]

theorem Carries.optional_some {b : β} {b' : Option β} (h : get s = some b)
    (hc : c.Carries depth b b') (hnull : c.encode b ≠ .null) :
    (Fields.optional name c get).Carries depth [name] s (b'.map some) := by
  refine .optional_written h hc.readable fun origin => ?_
  have hoption (v : Json) (hv : v ≠ .null) :
      c.option.decode origin v = (c.decode origin v).map some := by
    cases v <;> first | rfl | exact absurd rfl hv
  rw [hoption _ (canonical_ne_null hnull), ← hc.decode origin]
  cases c.decode origin (c.encode b).canonical <;> rfl

theorem Carries.optional_null {b : β} (h : get s = some b) (hnull : c.encode b = .null) :
    (Fields.optional name c get).Carries (depth + 1) [name] s (some none) :=
  .optional_written h (by rw [hnull]; exact .null depth) fun origin => by rw [hnull]; rfl

theorem Carries.optional_map {g : β → β}
    (h : ∀ b, get s = some b → c.Carries depth b (some (g b)) ∧ c.encode b ≠ .null) :
    (Fields.optional name c get).Carries depth [name] s (some ((get s).map g)) := by
  cases hget : get s with
  | none => exact .optional_none hget
  | some b => exact .optional_some hget (h b hget).1 (h b hget).2

theorem Carries.optional
    (h : ∀ b, get s = some b → c.Carries depth b (some b) ∧ c.encode b ≠ .null) :
    (Fields.optional name c get).Carries depth [name] s (some (get s)) := by
  have hsame : (Fields.optional name c get).Carries depth [name] s (some ((get s).map id)) :=
    .optional_map h
  rwa [Option.map_id] at hsame

end Optional

/-- The fields are decoded from an object in canonical form that has their entries among others. -/
theorem Carries.run {x : Fields σ α} {b : Option α} (hx : x.Carries depth names s b)
    {entries : List (String × Json)} (hnodup : (entries.map (·.1)).Nodup)
    (hsame : ∀ n ∈ names, binding? n entries = binding? n (x.write s)) (title : String)
    (origin : Origin) :
    (x.run title origin (.named (Json.sortedEntries entries).entries)).toOption = b := by
  rw [toOption_run]
  exact hx.decode origin _ 0 fun n hn => by
    rw [Json.binding?_sortedEntries, binding?_reverse hnodup, hsame n hn]

end Fields

namespace Codec

variable {depth : Nat}

theorem carries_string (depth : Nat) (s : String) :
    Codec.string.Carries (depth + 1) s (some s) := ⟨.str depth s, fun _ => rfl⟩

theorem carries_bool (depth : Nat) (b : Bool) : Codec.bool.Carries (depth + 1) b (some b) :=
  ⟨.bool depth b, fun _ => rfl⟩

theorem carries_integer {expected : String} {low high : Int} {toInt : α → Int} {ofInt : Int → α}
    {a : α} (hlow : low ≤ toInt a) (hhigh : toInt a ≤ high) (hofInt : ofInt (toInt a) = a)
    (hmin : -(UInt64.size / 2 : Nat) ≤ low) (hmax : high < UInt64.size) :
    (integer expected low high toInt ofInt).Carries (depth + 1) a (some a) where
  readable := .num depth (Json.readsBack_int (by omega) (by omega))
  decode _ := by
    show Except.toOption (if low ≤ toInt a ∧ toInt a ≤ high then .ok (ofInt (toInt a)) else _) = _
    rw [if_pos ⟨hlow, hhigh⟩, hofInt]
    rfl

theorem carries_uint32 (n : UInt32) : uint32.Carries (depth + 1) n (some n) :=
  carries_integer (by omega) (by have := n.toNat_lt_size; omega) (by simp) (by decide) (by decide)

theorem carries_uint64 (n : UInt64) : uint64.Carries (depth + 1) n (some n) :=
  carries_integer (by omega) (by have := n.toNat_lt_size; omega) (by simp) (by decide) (by decide)

theorem carries_int64 (n : Int64) : int64.Carries (depth + 1) n (some n) :=
  carries_integer n.minValue_le_toInt n.toInt_le (by simp) (by decide) (by decide)

theorem carries_choice {all : List α} {name : α → String} {a : α}
    (h : all.find? (name · == name a) = some a) :
    (choice all name).Carries (depth + 1) a (some a) where
  readable := .str depth _
  decode _ := by
    show (pick all name (name a)).toOption = _
    rw [pick, h]
    rfl

/-- A JSON value goes as it is if it has its keys in order, as values in memory have. -/
theorem carries_any {v : Json} (hcanonical : v.canonical = v) (h : Readable depth v) :
    any.Carries depth v (some v) := ⟨h, fun _ => congrArg some hcanonical⟩

theorem toOption_bind (x : Except Json.Mismatch α) (f : α → Except Json.Mismatch β) :
    (x >>= f).toOption = x.toOption.bind fun a => (f a).toOption := by
  cases x <;> rfl

theorem carries_list {c : Codec α} {l : List α} {f : α → Option α}
    (h : ∀ a ∈ l, c.Carries (depth + 1) a (f a)) :
    (list c).Carries (depth + 2) l (l.mapM f) where
  readable := .arr fun v hv => by
    obtain ⟨a, ha, rfl⟩ := List.mem_map.1 hv
    exact (h a ha).readable
  decode origin := by
    have hitems : ((list c).encode l).canonical = .arr (l.map fun a => (c.encode a).canonical) := by
      show (Json.arr (l.map c.encode)).canonical = _
      rw [Json.canonical, Json.canonicalItems_eq, List.map_map]
      rfl
    rw [hitems]
    clear hitems
    show ((l.map fun a => (c.encode a).canonical).mapM (c.decode origin)).toOption = _
    induction l with
    | nil => rfl
    | cons a l ih =>
      rw [List.map_cons, List.mapM_cons, List.mapM_cons, toOption_bind, (h a (.head _)).decode]
      refine congrArg _ (funext fun b => ?_)
      rw [toOption_bind, ih fun a ha => h a (.tail _ ha)]
      rfl

theorem carries_map {c : Codec α} {m : SortedMap α} {f : α → α}
    (h : ∀ e ∈ m.entries, c.Carries (depth + 1) e.2 (some (f e.2))) :
    (map c).Carries (depth + 2) m (some (m.map f)) where
  readable := .obj fun e he => by
    obtain ⟨e', he', rfl⟩ := List.mem_map.1 he
    exact (h e' he').readable
  decode origin := by
    have hentries : ((map c).encode m).canonical =
        .obj (m.entries.map fun e => (e.1, (c.encode e.2).canonical)) := by
      show (Json.obj (m.map c.encode).entries).canonical = _
      have hvalues : (m.map c.encode).entries.map (fun e => (e.1, e.2.canonical)) =
          (m.map fun a => (c.encode a).canonical).entries := List.map_map
      rw [Json.canonical_obj, Json.sortedEntries, Json.canonicalEntries_eq, hvalues,
        SortedMap.ofList_entries]
      rfl
    have hdecode : ∀ l : List (String × α), (∀ e ∈ l, e ∈ m.entries) →
        (l.map fun e => (e.1, (c.encode e.2).canonical)).mapM
          (fun e => do return (e.1, ← c.decode origin e.2)) =
        Except.ok (l.map fun e => (e.1, f e.2)) := by
      intro l hl
      induction l with
      | nil => rfl
      | cons e l ih =>
        have hvalue : c.decode origin (c.encode e.2).canonical = .ok (f e.2) := by
          have hcarried := (h e (hl e (.head _))).decode origin
          cases hd : c.decode origin (c.encode e.2).canonical with
          | ok a => rw [hd] at hcarried; rw [Option.some.inj hcarried]
          | error m => rw [hd] at hcarried; cases hcarried
        rw [List.map_cons, List.mapM_cons, hvalue, ih fun e he => hl e (.tail _ he)]
        rfl
    rw [hentries]
    show Except.toOption (((m.entries.map fun e => (e.1, (c.encode e.2).canonical)).mapM
      (fun e => do return (e.1, ← c.decode origin e.2))) >>= fun entries =>
        return SortedMap.ofList entries) = _
    rw [hdecode m.entries fun _ he => he]
    exact congrArg some (SortedMap.ofList_entries (m.map f))

/-- `b` is what the fields make of theirs, `b'` the same in plain terms. -/
theorem carries_struct {name : String} {fields : Fields α α} {names : List String} {a : α}
    {b b' : Option α} (h : fields.Carries (depth + 1) names a b) (hb : b = b') :
    (Codec.struct name fields).Carries (depth + 2) a b' where
  readable := .obj h.readable
  decode origin := by
    show ((Codec.struct name fields).decode origin (Json.obj (fields.write a)).canonical).toOption = b'
    rw [Json.canonical_obj, ← hb]
    exact h.run h.nodup (fun _ _ => rfl) _ origin

section Tagged

variable {tag type label variant : String} {source? : β → Option σ} {fields : Fields σ β}
  {names others : List String} {s : σ} {b : Option β} {variants : List (Variant β)} {γ : Type}
  {own : Fields α γ} {a : α} {g : Option γ}

theorem tagged_entries (variant : String) (hown : own.Carries depth others a g) (h : fields.Carries depth names s b)
    (htag : tag ∉ others ∧ tag ∉ names) (hdisjoint : ∀ n ∈ names, n ∉ others)
    {entries : List (String × Json)}
    (hentries : entries = own.write a ++ (tag, .str variant) :: fields.write s) :
    (entries.map (·.1)).Nodup ∧ binding? tag entries = some (.str variant) ∧
      (∀ n ∈ others, binding? n entries = binding? n (own.write a)) ∧
      ∀ n ∈ names, binding? n entries = binding? n (fields.write s) := by
  have hown_none {n : String} (hn : n ∉ others) : binding? n (own.write a) = none :=
    binding?_eq_none.2 fun e he heq => hn (heq ▸ hown.named e he)
  have hnone {n : String} (hn : n ∉ names) : binding? n (fields.write s) = none :=
    binding?_eq_none.2 fun e he heq => hn (heq ▸ h.named e he)
  subst hentries
  refine ⟨?_, ?_, fun n hn => ?_, fun n hn => ?_⟩
  · rw [List.map_append, List.map_cons, List.nodup_append, List.nodup_cons]
    refine ⟨hown.nodup, ⟨fun hmem => ?_, h.nodup⟩, fun n hn m hm heq => ?_⟩
    · obtain ⟨e, he, heq⟩ := List.mem_map.1 hmem
      have hname := h.named e he
      rw [heq] at hname
      exact htag.2 hname
    · obtain ⟨e, he, rfl⟩ := List.mem_map.1 hn
      have hother := hown.named e he
      rcases List.mem_cons.1 hm with rfl | hm
      · exact htag.1 (heq ▸ hother)
      · obtain ⟨e', he', rfl⟩ := List.mem_map.1 hm
        exact hdisjoint _ (h.named e' he') (heq ▸ hother)
  · rw [binding?_append, hown_none htag.1, Option.none_or, binding?_cons, if_pos rfl]
  · have hne : tag ≠ n := fun heq => htag.1 (heq ▸ hn)
    rw [binding?_append, binding?_cons, if_neg hne, hnone fun hn' => hdisjoint n hn' hn,
      Option.or_none]
  · have hne : tag ≠ n := fun heq => htag.2 (heq ▸ hn)
    rw [binding?_append, binding?_cons, if_neg hne, hown_none (hdisjoint n hn), Option.none_or]

theorem ofEntries_sorted {pick : Json → Except Json.Mismatch (Variant β)}
    {entries : List (String × Json)} (hnodup : (entries.map (·.1)).Nodup)
    (htag : binding? tag entries = some (.str variant)) :
    Variant.ofEntries tag pick (Json.sortedEntries entries).entries = pick (.str variant) := by
  have hfound : binding? tag (Json.sortedEntries entries).entries = some (.str variant) := by
    rw [Json.binding?_sortedEntries, binding?_reverse hnodup, htag]
    rfl
  rw [binding?] at hfound
  rw [Variant.ofEntries, hfound]

theorem decode_withVariant (name tag : String) (own : Fields α (β → α)) (part : α → β)
    (variants : List (Variant β)) (origin : Origin) (entries : List (String × Json)) :
    (withVariant name tag own part variants).decode origin (.obj entries) =
      (do
        let make ← own.run ("struct " ++ name) origin (.named entries)
        let variant ← Variant.ofEntries tag (Variant.ofTag variants) entries
        return make (← variant.decode (.named entries))) := rfl

theorem carries_withVariant {own : Fields α (β → α)} {part : α → β} {name : String}
    {make : Option (β → α)} {b' : Option α}
    (hnamed : Variant.named variants variant =
      .ok (Variant.of type label variant source? fields))
    (hwrite : Variant.write tag variants (part a) = (tag, .str variant) :: fields.write s)
    (hown : own.Carries (depth + 1) others a make) (h : fields.Carries (depth + 1) names s b)
    (htag : tag ∉ others ∧ tag ∉ names) (hdisjoint : ∀ n ∈ names, n ∉ others)
    (hb : (make.bind fun make => b.map make) = b') :
    (Codec.withVariant name tag own part variants).Carries (depth + 2) a b' := by
  have hencode : (Codec.withVariant name tag own part variants).encode a =
      .obj (own.write a ++ (tag, .str variant) :: fields.write s) := by
    rw [← hwrite]
    rfl
  obtain ⟨hnodup, hfound, hothers, hnames⟩ :=
    tagged_entries variant hown h htag hdisjoint rfl
  refine ⟨?_, fun origin => ?_⟩
  · rw [hencode]
    refine .obj fun e he => ?_
    rcases List.mem_append.1 he with he | he
    · exact hown.readable e he
    · rcases List.mem_cons.1 he with rfl | he
      · exact .str depth _
      · exact h.readable e he
  · have hvariant : ((Variant.of type label variant source? fields).decode
        (.named (Json.sortedEntries _).entries)).toOption = b := h.run hnodup hnames _ .buffered
    have hpick : Variant.ofTag variants (.str variant) =
        .ok (Variant.of type label variant source? fields) := hnamed
    rw [hencode, Json.canonical_obj, decode_withVariant, toOption_bind, hown.run hnodup hothers,
      ofEntries_sorted hnodup hfound, hpick, ← hb]
    refine congrArg _ (funext fun make => ?_)
    rw [toOption_bind, Except.toOption, Option.bind_some, toOption_bind, hvariant]
    cases b <;> rfl

theorem decodeTagged_sorted (h : fields.Carries (depth + 1) names s b) (htag : tag ∉ names)
    (hnamed : Variant.named variants variant =
      .ok (Variant.of type label variant source? fields)) :
    (decodeTagged type tag variants
      (Json.obj ((tag, .str variant) :: fields.write s)).canonical).toOption = b := by
  have hnothing : (pure () : Fields Unit Unit).Carries (depth + 1) [] () (some ()) := .pure ()
  have hentries : (tag, Json.str variant) :: fields.write s =
      (pure () : Fields Unit Unit).write () ++ (tag, .str variant) :: fields.write s := rfl
  obtain ⟨hnodup, hfound, -, hnames⟩ := tagged_entries variant hnothing h ⟨List.not_mem_nil, htag⟩
    (fun _ _ => List.not_mem_nil) hentries
  have hvariant : ((Variant.of type label variant source? fields).decode
      (.named (Json.sortedEntries _).entries)).toOption = b := h.run hnodup hnames _ .buffered
  rw [Json.canonical_obj]
  simp only [decodeTagged]
  rw [ofEntries_sorted hnodup hfound]
  simp only [hnamed]
  exact hvariant

end Tagged

end Codec

end DocCompiler.Wire
