import DocCompiler.Proofs.Json.Delimited

/-! What text is read into: a value in canonical form that nests no deeper than there was room for
it. Such a value is written as a text that reads back if its numbers are. -/

namespace DocCompiler.Json

/-- Values that stand where so many containers may be opened, plus one. -/
inductive Nested : Nat → Json → Prop where
  | null (depth : Nat) : Nested (depth + 1) .null
  | bool (depth : Nat) (b : Bool) : Nested (depth + 1) (.bool b)
  | num (depth : Nat) (n : Number) : Nested (depth + 1) (.num n)
  | str (depth : Nat) (s : String) : Nested (depth + 1) (.str s)
  | arr {depth : Nat} {items : List Json} (h : ∀ v ∈ items, Nested (depth + 1) v) :
      Nested (depth + 2) (.arr items)
  | obj {depth : Nat} {entries : List (String × Json)} (h : ∀ e ∈ entries, Nested (depth + 1) e.2) :
      Nested (depth + 2) (.obj entries)

/-- Every number of the value has a text that reads back as it. -/
inductive NumbersReadBack : Json → Prop where
  | null : NumbersReadBack .null
  | bool (b : Bool) : NumbersReadBack (.bool b)
  | num {n : Number} (h : n.ReadsBack) : NumbersReadBack (.num n)
  | str (s : String) : NumbersReadBack (.str s)
  | arr {items : List Json} (h : ∀ v ∈ items, NumbersReadBack v) : NumbersReadBack (.arr items)
  | obj {entries : List (String × Json)} (h : ∀ e ∈ entries, NumbersReadBack e.2) :
      NumbersReadBack (.obj entries)

attribute [simp] NumbersReadBack.null NumbersReadBack.bool NumbersReadBack.str

@[simp] theorem numbersReadBack_arr {items : List Json} :
    (arr items).NumbersReadBack ↔ ∀ v ∈ items, v.NumbersReadBack :=
  ⟨fun h => by cases h with | arr h => exact h, .arr⟩

@[simp] theorem numbersReadBack_obj {entries : List (String × Json)} :
    (obj entries).NumbersReadBack ↔ ∀ e ∈ entries, e.2.NumbersReadBack :=
  ⟨fun h => by cases h with | obj h => exact h, .obj⟩

theorem Nested.readable {depth : Nat} {v : Json} (h : Nested depth v) (hnumbers : v.NumbersReadBack) :
    Readable depth v := by
  induction h with
  | null depth => exact .null depth
  | bool depth b => exact .bool depth b
  | num depth n =>
    cases hnumbers with
    | num h => exact .num depth h
  | str depth s => exact .str depth s
  | arr _ ih =>
    rw [numbersReadBack_arr] at hnumbers
    exact .arr fun v hv => ih v hv (hnumbers v hv)
  | obj _ ih =>
    rw [numbersReadBack_obj] at hnumbers
    exact .obj fun e he => ih e he (hnumbers e he)

theorem Readable.nested {depth : Nat} {v : Json} (h : Readable depth v) : Nested depth v := by
  induction h with
  | null depth => exact .null depth
  | bool depth b => exact .bool depth b
  | num depth => exact .num depth _
  | str depth s => exact .str depth s
  | arr _ ih => exact .arr ih
  | obj _ ih => exact .obj ih

theorem Nested.mono {depth : Nat} {v : Json} (h : Nested depth v) (more : Nat) :
    Nested (depth + more) v := by
  induction h with
  | null depth => rw [Nat.add_right_comm]; exact .null _
  | bool depth b => rw [Nat.add_right_comm]; exact .bool _ b
  | num depth n => rw [Nat.add_right_comm]; exact .num _ n
  | str depth s => rw [Nat.add_right_comm]; exact .str _ s
  | arr _ ih =>
    rw [Nat.add_right_comm]
    exact .arr fun v hv => Nat.add_right_comm .. ▸ ih v hv
  | obj _ ih =>
    rw [Nat.add_right_comm]
    exact .obj fun e he => Nat.add_right_comm .. ▸ ih e he

theorem exists_forall_nested {α : Type} {f : α → Json} (l : List α)
    (h : ∀ a ∈ l, ∃ depth, Nested depth (f a)) : ∃ depth, ∀ a ∈ l, Nested (depth + 1) (f a) := by
  induction l with
  | nil => exact ⟨0, nofun⟩
  | cons a l ih =>
    obtain ⟨depth, ha⟩ := h a (.head _)
    obtain ⟨depth', hl⟩ := ih fun b hb => h b (.tail _ hb)
    refine ⟨depth + depth', fun b hb => ?_⟩
    rcases List.mem_cons.1 hb with rfl | hb
    · exact ha.mono (depth' + 1)
    · have hmore := (hl b hb).mono depth
      rwa [Nat.add_right_comm, Nat.add_comm depth'] at hmore

theorem exists_nested (v : Json) : ∃ depth, Nested depth v := by
  induction v using induction with
  | null => exact ⟨1, .null 0⟩
  | bool b => exact ⟨1, .bool 0 b⟩
  | num n => exact ⟨1, .num 0 n⟩
  | str s => exact ⟨1, .str 0 s⟩
  | arr items ih =>
    obtain ⟨depth, h⟩ := exists_forall_nested items ih
    exact ⟨depth + 2, .arr h⟩
  | obj entries ih =>
    obtain ⟨depth, h⟩ := exists_forall_nested entries ih
    exact ⟨depth + 2, .obj h⟩

theorem Nested.canonical {depth : Nat} {v : Json} (h : Nested depth v) :
    Nested depth v.canonical := by
  induction h with
  | null depth => exact .null depth
  | bool depth b => exact .bool depth b
  | num depth n => exact .num depth n
  | str depth s => exact .str depth s
  | arr _ ih =>
    rw [Json.canonical, canonicalItems_eq]
    exact .arr (List.forall_mem_map.2 ih)
  | @obj depth _ _ ih =>
    rw [canonical_obj]
    exact .obj (forall_mem_sortedEntries (P := Nested (depth + 1)) ih)

/-- A value as it is kept in memory, where there is room for it. -/
def Kept (depth : Nat) (v : Json) : Prop := v.canonical = v ∧ Nested depth v

namespace Kept

variable {depth : Nat}

theorem items {items : List Json} (h : Kept (depth + 2) (.arr items)) :
    ∀ v ∈ items, Kept (depth + 1) v := by
  obtain ⟨hcanonical, hnested⟩ := h
  rw [Json.canonical, canonicalItems_eq, Json.arr.injEq] at hcanonical
  cases hnested with
  | arr hitems =>
    have hsame := List.map_inj_left.1 (hcanonical.trans (List.map_id' items).symm)
    exact fun v hv => ⟨hsame v hv, hitems v hv⟩

theorem entries {entries : List (String × Json)} (h : Kept (depth + 2) (.obj entries)) :
    ∀ e ∈ entries, Kept (depth + 1) e.2 := by
  obtain ⟨hcanonical, hnested⟩ := h
  rw [canonical_obj, Json.obj.injEq] at hcanonical
  have hvalues : ∀ e ∈ entries, e.2.canonical = e.2 := by
    rw [← hcanonical]
    exact forall_mem_sortedEntries (P := fun v => v.canonical = v) fun e _ => canonical_canonical e.2
  cases hnested with
  | obj hentries => exact fun e he => ⟨hvalues e he, hentries e he⟩

theorem arr {items : List Json} (h : ∀ v ∈ items, Kept (depth + 1) v) :
    Kept (depth + 2) (.arr items) :=
  ⟨canonical_arr fun v hv => (h v hv).1, .arr fun v hv => (h v hv).2⟩

theorem ofEntries {entries : List (String × Json)} (h : ∀ e ∈ entries, Kept (depth + 1) e.2) :
    Kept (depth + 2) (.ofEntries entries) := by
  have hcanonical : (Json.obj entries).canonical = .ofEntries entries := by
    rw [Json.canonical, canonicalEntries_of_canonical fun e he => (h e he).1]
  rw [← hcanonical]
  exact ⟨canonical_canonical _, Nested.canonical (.obj fun e he => (h e he).2)⟩

end Kept

namespace Reader

variable {α β : Type}

def Gives (x : Reader α) (P : α → Prop) : Prop := ∀ cs a rest, x cs = .ok (a, rest) → P a

section Gives

variable {P : α → Prop} {Q : β → Prop}

theorem Gives.pure {a : α} (h : P a) : Gives (pure a) P := by
  rintro cs _ _ ⟨⟩
  exact h

theorem Gives.throw (f : Fault) : Gives (throw f) P := by
  rintro cs _ _ ⟨⟩

theorem Gives.bind {x : Reader α} {f : α → Reader β} (hx : Gives x P)
    (hf : ∀ a, P a → Gives (f a) Q) : Gives (x >>= f) Q := by
  intro cs b rest h
  cases hread : x cs with
  | error e =>
    have hfail : (x >>= f) cs = .error e := by
      show (x cs).bind _ = _
      rw [hread]
      rfl
    rw [hfail] at h
    cases h
  | ok r =>
    obtain ⟨a, cs'⟩ := r
    rw [bind_ok hread] at h
    exact hf a (hx cs a cs' hread) cs' b rest h

theorem Gives.after {x : Reader α} {f : α → Reader β} (hf : ∀ a, Gives (f a) Q) :
    Gives (x >>= f) Q :=
  Gives.bind (P := fun _ => True) (fun _ _ _ _ => trivial) fun a _ => hf a

theorem Gives.imp {x : Reader α} {P' : α → Prop} (hx : Gives x P) (h : ∀ a, P a → P' a) :
    Gives x P' := fun cs a rest hread => h a (hx cs a rest hread)

theorem gives_items {item : Reader α} (h : Gives item P) (rounds : Nat) :
    ∀ first done, (∀ a ∈ done, P a) → Gives (items item rounds first done) fun l => ∀ a ∈ l, P a := by
  induction rounds with
  | zero => exact fun _ _ _ => .throw _
  | succ rounds ih =>
    intro first done hdone
    rw [items]
    refine .after fun more => ?_
    cases more with
    | true => exact h.bind fun a ha => ih false _ (List.forall_mem_cons.2 ⟨ha, hdone⟩)
    | false => exact .after fun _ => .pure fun a ha => hdone a (List.mem_reverse.1 ha)

theorem gives_entries {step : String → β → Reader β} (h : ∀ k b, Q b → Gives (step k b) Q)
    (rounds : Nat) : ∀ first b, Q b → Gives (entries step rounds first b) Q := by
  induction rounds with
  | zero => exact fun _ _ _ => .throw _
  | succ rounds ih =>
    intro first b hb
    rw [entries]
    refine .after fun more => ?_
    cases more with
    | true => exact .after fun k => (h k b hb).bind fun b' hb' => ih false b' hb'
    | false => exact .after fun _ => .pure hb

/-- Inside a container there is room for one container less. -/
theorem gives_inside {rounds depth : Nat} {body : Room → Reader α}
    (h : ∀ less, depth = less + 1 → Gives (body ⟨rounds, less + 1⟩) P) :
    Gives (inside ⟨rounds, depth + 1⟩ body) P := by
  rw [inside]
  split
  case isTrue => exact .throw _
  case isFalse hdepth =>
    obtain ⟨less, rfl⟩ : ∃ less, depth = less + 1 :=
      Nat.exists_eq_succ_of_ne_zero (by rintro rfl; exact hdepth (Nat.le_refl 1))
    exact .after fun _ => h less rfl

end Gives

def Scalar : Json → Prop
  | .arr _ | .obj _ => False
  | _ => True

theorem Scalar.kept {v : Json} (h : Scalar v) (depth : Nat) : Kept (depth + 1) v := by
  cases v with
  | null => exact ⟨rfl, .null depth⟩
  | bool b => exact ⟨rfl, .bool depth b⟩
  | num n => exact ⟨rfl, .num depth n⟩
  | str s => exact ⟨rfl, .str depth s⟩
  | arr | obj => exact h.elim

theorem gives_scalar (c : Char) : Gives (scalar c) Scalar := by
  rw [scalar]
  iterate 6
    split
    · first
        | exact .after fun _ => .pure trivial
        | exact .after fun _ => .after fun _ => .pure trivial
  exact .throw _

theorem gives_entry {item : Reader Json} {P : Json → Prop} (h : Gives item P) (k : String)
    (done : List (String × Json)) (hdone : ∀ e ∈ done, P e.2) :
    Gives (entry item k done) fun done => ∀ e ∈ done, P e.2 := by
  rw [entry]
  exact .after fun _ => h.bind fun v hv => .pure (List.forall_mem_cons.2 ⟨hv, hdone⟩)

/-- What is read of a value: one in canonical form, unless it is left as it stands. -/
def ReadAs (raw : Bool) (depth : Nat) (v : Json) : Prop :=
  if raw then Nested depth v else Kept depth v

theorem readAs_arr {raw : Bool} {depth : Nat} {items : List Json}
    (h : ∀ v ∈ items, ReadAs raw (depth + 1) v) : ReadAs raw (depth + 2) (.arr items) := by
  cases raw with
  | true => exact Nested.arr h
  | false => exact Kept.arr h

theorem readAs_obj {raw : Bool} {depth : Nat} {entries : List (String × Json)}
    (h : ∀ e ∈ entries, ReadAs raw (depth + 1) e.2) :
    ReadAs raw (depth + 2) (if raw then .obj entries else .ofEntries entries) := by
  cases raw with
  | true => exact Nested.obj h
  | false => exact Kept.ofEntries h

theorem Scalar.readAs {v : Json} (h : Scalar v) (raw : Bool) (depth : Nat) :
    ReadAs raw (depth + 1) v := by
  cases raw with
  | true => exact (h.kept depth).2
  | false => exact h.kept depth

/-- A value nests no deeper than there is room for it. -/
theorem gives_value (raw : Bool) (rounds depth : Nat) :
    Gives (value raw rounds depth) (ReadAs raw depth) := by
  -- a container is read with less room for what it contains
  induction depth with
  | zero => rw [value]; exact .throw _
  | succ depth ih =>
    rw [value]
    refine .after fun next => ?_
    split
    · exact .throw _
    · refine gives_inside ?_
      rintro less rfl
      exact (gives_items ih _ _ _ (List.forall_mem_nil _)).bind fun items h => .pure (readAs_arr h)
    · refine gives_inside ?_
      rintro less rfl
      refine (gives_entries (gives_entry ih) _ _ [] (List.forall_mem_nil _)).bind fun es h =>
        .pure (readAs_obj ?_)
      exact fun e he => h e (List.mem_reverse.1 he)
    · exact (gives_scalar _).imp fun v hv => hv.readAs raw depth

end Reader
end DocCompiler.Json
