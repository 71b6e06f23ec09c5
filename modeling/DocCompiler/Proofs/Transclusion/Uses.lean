import DocCompiler.Proofs.Text.Pieces
import DocCompiler.Transclusion.Provenance
import Mathlib.Data.List.Induction
import Mathlib.Data.List.Nodup
import Std.Data.String.ToNat

/-! Logs of uses as lists: of the entries that are added, the first one of each key stays. A log
goes by labels, which tell keys apart whatever characters are in an id. A list that is put together
from parts may be reduced part by part before it is reduced as a whole. -/

namespace DocCompiler.Transclusion

/-- The entries of a list without those whose key an earlier one has. -/
def firstOfEachKey (es : List ProvenanceEntry) : List ProvenanceEntry :=
  es.eraseDupsBy fun a b => a.key == b.key

@[simp] theorem firstOfEachKey_nil : firstOfEachKey [] = [] := rfl

theorem firstOfEachKey_cons (e : ProvenanceEntry) (es : List ProvenanceEntry) :
    firstOfEachKey (e :: es) = e :: firstOfEachKey (es.filter fun a => a.key ≠ e.key) := by
  rw [firstOfEachKey, List.eraseDupsBy_cons]
  simp [firstOfEachKey]

theorem keyInduction {motive : List ProvenanceEntry → Prop} (nil : motive [])
    (cons : ∀ e es, motive (es.filter fun a => a.key ≠ e.key) → motive (e :: es)) :
    ∀ es, motive es
  | [] => nil
  | e :: es => cons e es (keyInduction nil cons _)
termination_by es => es.length
decreasing_by exact Nat.lt_succ_of_le (List.length_filter_le ..)

theorem mem_of_mem_firstOfEachKey {e : ProvenanceEntry} {es : List ProvenanceEntry}
    (h : e ∈ firstOfEachKey es) : e ∈ es := by
  induction es using keyInduction with
  | nil => exact h
  | cons e' es ih =>
    rw [firstOfEachKey_cons] at h
    rcases List.mem_cons.1 h with rfl | h
    · exact .head _
    · exact .tail _ (List.mem_filter.1 (ih h)).1

theorem filter_firstOfEachKey (p : String × UInt32 × SnippetMode → Bool)
    (es : List ProvenanceEntry) :
    (firstOfEachKey es).filter (fun e => p e.key) = firstOfEachKey (es.filter fun e => p e.key) := by
  induction es using keyInduction with
  | nil => rfl
  | cons e es ih =>
    rw [firstOfEachKey_cons, List.filter_cons, ih, List.filter_cons, List.filter_filter]
    split
    case isTrue hp =>
      rw [firstOfEachKey_cons, List.filter_filter]
      simp only [Bool.and_comm]
    case isFalse hp =>
      -- an entry of the same key is left out anyway
      have hsame : (es.filter fun a => p a.key && decide (a.key ≠ e.key)) =
          es.filter fun a => p a.key := by
        refine List.filter_congr fun a _ => ?_
        by_cases ha : a.key = e.key
        · simp [ha, hp]
        · simp [ha]
      rw [hsame]

theorem nodup_keys_firstOfEachKey (es : List ProvenanceEntry) :
    ((firstOfEachKey es).map (·.key)).Nodup := by
  induction es using keyInduction with
  | nil => exact .nil
  | cons e es ih =>
    rw [firstOfEachKey_cons, List.map_cons, List.nodup_cons]
    refine ⟨fun hmem => ?_, ih⟩
    obtain ⟨a, ha, hkey⟩ := List.mem_map.1 hmem
    have hother := (List.mem_filter.1 (mem_of_mem_firstOfEachKey ha)).2
    exact absurd hkey (of_decide_eq_true hother)

theorem key_mem_firstOfEachKey {e : ProvenanceEntry} {es : List ProvenanceEntry} (h : e ∈ es) :
    e.key ∈ (firstOfEachKey es).map (·.key) := by
  induction es using keyInduction with
  | nil => cases h
  | cons e' es ih =>
    rw [firstOfEachKey_cons, List.map_cons]
    by_cases hkey : e.key = e'.key
    · exact hkey ▸ .head _
    · have hrest : e ∈ es := (List.mem_cons.1 h).resolve_left fun heq => hkey (heq ▸ rfl)
      exact .tail _ (ih (List.mem_filter.2 ⟨hrest, decide_eq_true hkey⟩))

theorem firstOfEachKey_concat (es : List ProvenanceEntry) (e : ProvenanceEntry) :
    firstOfEachKey (es ++ [e]) =
      firstOfEachKey es ++ if e.key ∈ es.map (·.key) then [] else [e] := by
  induction es using keyInduction with
  | nil => rfl
  | cons a es ih =>
    rw [List.cons_append, firstOfEachKey_cons, firstOfEachKey_cons, List.filter_append,
      List.cons_append]
    congr 1
    by_cases hkey : e.key = a.key
    · simp [hkey]
    · have hmem : e.key ∈ (es.filter fun b => b.key ≠ a.key).map (·.key) ↔
          e.key ∈ (a :: es).map (·.key) := by
        simp only [List.mem_map, List.mem_filter, List.mem_cons, decide_eq_true_eq]
        constructor
        · rintro ⟨b, ⟨hb, -⟩, heq⟩
          exact ⟨b, .inr hb, heq⟩
        · rintro ⟨b, rfl | hb, heq⟩
          · exact absurd heq.symm hkey
          · exact ⟨b, ⟨hb, heq ▸ hkey⟩, heq⟩
      rw [List.filter_cons_of_pos (by simpa using hkey), List.filter_nil, ih]
      simp only [hmem]

/-- By their places: the entries stay before which no other one has their key. -/
theorem firstOfEachKey_eq_filter (es : List ProvenanceEntry) :
    firstOfEachKey es =
      (es.zipIdx.filter fun x => x.1.key ∉ (es.take x.2).map (·.key)).map (·.1) := by
  induction es using List.reverseRecOn with
  | nil => rfl
  | append_singleton es e ih =>
    have hfront : (es.zipIdx.filter fun x => x.1.key ∉ ((es ++ [e]).take x.2).map (·.key)) =
        es.zipIdx.filter fun x => x.1.key ∉ (es.take x.2).map (·.key) := by
      refine List.filter_congr fun x hx => ?_
      rw [List.take_append_of_le_length (Nat.le_of_lt (List.snd_lt_of_mem_zipIdx hx))]
    rw [firstOfEachKey_concat, ih, List.zipIdx_append, List.filter_append, hfront, List.map_append]
    by_cases hkey : e.key ∈ es.map (·.key)
    · simp [hkey]
    · simp [hkey]

theorem firstOfEachKey_append_left (es fs : List ProvenanceEntry) :
    firstOfEachKey (firstOfEachKey es ++ fs) = firstOfEachKey (es ++ fs) := by
  induction es using keyInduction generalizing fs with
  | nil => rfl
  | cons e es ih =>
    rw [firstOfEachKey_cons, List.cons_append, firstOfEachKey_cons, List.filter_append,
      filter_firstOfEachKey (· ≠ e.key), List.filter_filter]
    simp only [Bool.and_self]
    rw [ih, List.cons_append, firstOfEachKey_cons, List.filter_append]

theorem firstOfEachKey_append_right (es fs : List ProvenanceEntry) :
    firstOfEachKey (es ++ firstOfEachKey fs) = firstOfEachKey (es ++ fs) := by
  induction es using keyInduction generalizing fs with
  | nil =>
    have hself := firstOfEachKey_append_left fs []
    rwa [List.append_nil, List.append_nil] at hself
  | cons e es ih =>
    rw [List.cons_append, firstOfEachKey_cons, List.filter_append,
      filter_firstOfEachKey (· ≠ e.key), ih, List.cons_append, firstOfEachKey_cons,
      List.filter_append]

theorem firstOfEachKey_flatMap {α : Type} (parts : List α) (f : α → List ProvenanceEntry) :
    firstOfEachKey (parts.flatMap fun a => firstOfEachKey (f a)) =
      firstOfEachKey (parts.flatMap f) := by
  induction parts with
  | nil => rfl
  | cons a parts ih =>
    rw [List.flatMap_cons, List.flatMap_cons, firstOfEachKey_append_left,
      ← firstOfEachKey_append_right, ih, firstOfEachKey_append_right]

namespace ProvenanceEntry

theorem colon_not_mem_name (mode : SnippetMode) : ':' ∉ mode.name.toList := by
  cases mode <;> decide

theorem name_inj {mode mode' : SnippetMode} (h : mode.name = mode'.name) : mode = mode' := by
  cases mode <;> cases mode' <;> first | rfl | exact absurd h (by decide)

theorem at_not_mem_revision (revision : UInt32) : '@' ∉ (toString revision).toList := by
  intro hmem
  have hdigits : (toString revision).toList = Nat.toDigits 10 revision.toNat := Nat.toList_repr
  rw [hdigits] at hmem
  exact absurd (Nat.isDigit_of_mem_toDigits (by decide) (by decide) hmem) (by decide)

theorem toList_label (e : ProvenanceEntry) :
    e.label.toList = (e.snippetId.toList ++ '@' :: (toString e.revision).toList) ++
      ':' :: e.mode.name.toList := by
  simp [label]

/-- Labels tell keys apart, also where an id looks like a label: the mode stands behind the last
colon, and the revision behind the last `@` before that. -/
theorem label_eq_label_iff {a b : ProvenanceEntry} : a.label = b.label ↔ a.key = b.key := by
  constructor
  · intro h
    have hlists := congrArg String.toList h
    rw [toList_label, toList_label] at hlists
    obtain ⟨hfront, hmode⟩ := Text.append_cons_inj_of_last (colon_not_mem_name a.mode)
      (colon_not_mem_name b.mode) hlists
    obtain ⟨hid, hrevision⟩ := Text.append_cons_inj_of_last (at_not_mem_revision a.revision)
      (at_not_mem_revision b.revision) hfront
    have hnat : a.revision.toNat = b.revision.toNat :=
      Nat.repr_injective (String.toList_injective hrevision)
    rw [key, key, String.toList_injective hid, UInt32.toNat_inj.1 hnat,
      name_inj (String.toList_injective hmode)]
  · intro h
    obtain ⟨hid, hrest⟩ := Prod.mk.inj h
    obtain ⟨hrevision, hmode⟩ := Prod.mk.inj hrest
    rw [label, label, hid, hrevision, hmode]

end ProvenanceEntry

namespace ProvenanceLog

theorem entries_foldl_add (es : List ProvenanceEntry) (log : ProvenanceLog) :
    (es.foldl add log).entries.toList =
      log.entries.toList ++ firstOfEachKey (es.filter fun e => !log.seen.contains e.label) := by
  induction es generalizing log with
  | nil => simp
  | cons e es ih =>
    rw [List.foldl_cons, ih, add, List.filter_cons]
    by_cases hseen : log.seen.contains e.label
    · rw [if_pos hseen, if_neg (by simp [hseen])]
    · have hkeys : (es.filter fun a => !(log.seen.insert e.label).contains a.label) =
          (es.filter fun a => !log.seen.contains a.label).filter fun a => a.key ≠ e.key := by
        rw [List.filter_filter]
        refine List.filter_congr fun a _ => ?_
        have hlabel : e.label = a.label ↔ a.key = e.key :=
          eq_comm.trans ProvenanceEntry.label_eq_label_iff
        rw [Std.HashSet.contains_insert, Bool.not_or]
        by_cases ha : a.key = e.key
        · simp [ha, hlabel.2 ha]
        · simp [ha, hlabel]
      rw [if_neg hseen, if_pos (by simp [hseen]), hkeys, firstOfEachKey_cons]
      simp

theorem entries_foldl_record (uses : List (Snippet.Resolved × SnippetMode)) :
    (uses.foldl (fun log u => log.record u.1 u.2) empty).entries.toList =
      firstOfEachKey (uses.map fun u => .of u.1 u.2) := by
  have hfold : uses.foldl (fun log u => log.record u.1 u.2) empty =
      (uses.map fun u => ProvenanceEntry.of u.1 u.2).foldl add empty := by
    rw [List.foldl_map]
    rfl
  have hunseen (es : List ProvenanceEntry) :
      (es.filter fun e => !empty.seen.contains e.label) = es :=
    List.filter_eq_self.2 fun e _ => by simp [empty]
  rw [hfold, entries_foldl_add, hunseen]
  rfl

/-- **A log has the first use of each key.** Whatever uses are recorded in a new log, and whatever
characters are in their ids: its entries are the recorded ones, in their order, without those whose
key has been recorded before; no two entries have the same key, and every key that has been recorded
has an entry. -/
theorem entries_record_unrepeated (uses : List (Snippet.Resolved × SnippetMode)) :
    let recorded := uses.map fun u => ProvenanceEntry.of u.1 u.2
    let entries := (uses.foldl (fun log u => log.record u.1 u.2) empty).entries.toList
    entries = (recorded.zipIdx.filter fun x =>
        x.1.key ∉ (recorded.take x.2).map (·.key)).map (·.1) ∧
      (entries.map (·.key)).Nodup ∧ ∀ e ∈ recorded, e.key ∈ entries.map (·.key) := by
  intro recorded entries
  have hentries : entries = firstOfEachKey recorded := entries_foldl_record uses
  rw [hentries]
  exact ⟨firstOfEachKey_eq_filter recorded, nodup_keys_firstOfEachKey recorded,
    fun _ he => key_mem_firstOfEachKey he⟩

def hashed (id : String) (rev : UInt32) (hash : String) : Snippet.Resolved :=
  ⟨⟨id, id, none, rev, "", ∅, none⟩, ⟨rev, none, "", ∅, hash, none⟩⟩

def imitations : List (Snippet.Resolved × SnippetMode) :=
  [(hashed "a" 1 "h", .inline), (hashed "a@1:inline" 1 "h", .inline), (hashed "a" 1 "h", .transclude),
    (hashed "a@1" 1 "h", .inline), (hashed "a" 1 "h'", .inline), (hashed "a" 11 "h", .inline)]

theorem entries_record_unrepeated_imitations :
    let entries := (imitations.foldl (fun log u => log.record u.1 u.2) empty).entries.toList
    let again := ProvenanceEntry.of (hashed "a" 1 "h'") .inline
    entries = (imitations.eraseIdx 4).map (fun u => .of u.1 u.2) ∧
      again ∈ imitations.map (fun u => .of u.1 u.2) ∧ again.key ∈ entries.map (·.key) := by
  intro entries again
  obtain ⟨hentries, -, hkeys⟩ := entries_record_unrepeated imitations
  have hagain : again ∈ imitations.map fun u => .of u.1 u.2 := by decide
  exact ⟨hentries.trans (by decide), hagain, hkeys again hagain⟩

end ProvenanceLog
end DocCompiler.Transclusion
