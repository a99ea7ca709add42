import CallTrace.Json.Decode
import CallTrace.Proofs.Json.Reading

/-!
Decoders on what was written. A decoder that reads back a written value does so as long as the
value opens no more levels than the decoder may; one level too many and it refuses the text.
-/

namespace CallTrace.Json

namespace Value

mutual

def nesting : Value → Nat
  | .arr items => nestingItems items + 1
  | .obj fields => nestingFields fields + 1
  | _ => 0

def nestingItems : List Value → Nat
  | [] => 0
  | item :: rest => max (nesting item) (nestingItems rest)

def nestingFields : List (String × Value) → Nat
  | [] => 0
  | (_, item) :: rest => max (nesting item) (nestingFields rest)

end

theorem nestingItems_le_iff {items : List Value} {n : Nat} :
    nestingItems items ≤ n ↔ ∀ item ∈ items, item.nesting ≤ n := by
  induction items with
  | nil => simp [nestingItems]
  | cons item rest ih => simp [nestingItems, ih]

theorem nestingFields_le_iff {fields : List (String × Value)} {n : Nat} :
    nestingFields fields ≤ n ↔ ∀ field ∈ fields, field.2.nesting ≤ n := by
  induction fields with
  | nil => simp [nestingFields]
  | cons field rest ih => simp [nestingFields, ih]

end Value

namespace Decode

/-- What comes of reading a value whose text opens some levels where only so many are allowed. -/
def limited (depth levels : Nat) (a : α) : Except Fault α :=
  if depth ≤ levels then .ok a else .error .text

theorem limited_zero (levels : Nat) (a : α) : limited 0 levels a = .ok a :=
  if_pos (Nat.zero_le levels)

@[simp] theorem limited_succ_zero (depth : Nat) (a : α) : limited (depth + 1) 0 a = .error .text :=
  if_neg (Nat.not_succ_le_zero depth)

@[simp] theorem limited_succ_succ (depth levels : Nat) (a : α) :
    limited (depth + 1) (levels + 1) a = limited depth levels a := by
  simp [limited]

@[simp] theorem map_limited (f : α → β) (depth levels : Nat) (a : α) :
    (limited depth levels a).map f = limited depth levels (f a) := by
  unfold limited
  split <;> rfl

/-- Of two values both have to fit. -/
theorem limited_bind (depth depth' levels : Nat) (a : α) {f : α → Except Fault β} {b : β}
    (h : f a = limited depth' levels b) :
    (limited depth levels a >>= f) = limited (max depth depth') levels b := by
  by_cases hdepth : depth ≤ levels
  · have hfirst : limited depth levels a = .ok a := if_pos hdepth
    have hboth : max depth depth' ≤ levels ↔ depth' ≤ levels := by omega
    rw [hfirst]
    exact h.trans (by simp only [limited, hboth])
  · have hfirst : limited depth levels a = .error .text := if_neg hdepth
    have hboth : limited (max depth depth') levels b = .error .text := if_neg (by omega)
    rw [hfirst, hboth]
    rfl

end Decode

open Decode

def Decoder.Reads (decoder : Decoder α) (v : Value) (a : α) : Prop :=
  ∀ levels, decoder levels v.reading = limited v.nesting levels a

namespace Decode

theorem text_reads (s : String) : Decoder.Reads text (.str s) s :=
  fun levels => (limited_zero levels s).symm

theorem bool_reads (b : Bool) : Decoder.Reads bool (.bool b) b :=
  fun levels => (limited_zero levels b).symm

theorem decimalValue_toDigits (n : Nat) : Text.decimalValue (Nat.toDigits 10 n) = n := by
  calc
    _ = Nat.ofDigitChars 10 (Nat.toDigits 10 n) 0 := by
      simp only [Text.decimalValue, Nat.ofDigitChars_eq_foldl, Nat.mul_comm]
      rfl
    _ = n := Nat.ofDigitChars_ten_toDigits

theorem natBelow_reads {bound n : Nat} (hn : n < bound) :
    Decoder.Reads (natBelow bound) (.num n) n := by
  intro levels
  have hdigits : (Nat.toDigits 10 n).all Char.isDigit = true :=
    List.all_eq_true.mpr fun c hc => Nat.isDigit_of_mem_toDigits (by decide) (by decide) hc
  simp [Value.reading, natBelow, hdigits, decimalValue_toDigits, hn, Value.nesting, limited_zero]

theorem items_eq {item : Reading → Except Fault α} {write : α → Value} {levels : Nat} (as : List α)
    (h : ∀ a ∈ as, item (write a).reading = limited (write a).nesting levels a) :
    items item true (Value.readingItems (as.map write)) =
      limited (Value.nestingItems (as.map write)) levels as := by
  induction as with
  | nil => exact (limited_zero levels []).symm
  | cons a as ih =>
      have hrest := ih fun b hb => h b (List.mem_cons_of_mem a hb)
      rw [List.map_cons, Value.readingItems, items, h a List.mem_cons_self, hrest]
      refine limited_bind _ _ levels a ?_
      exact map_limited (a :: ·) _ levels as

theorem list_reads {item : Decoder α} {write : α → Value} {as : List α}
    (h : ∀ a ∈ as, item.Reads (write a) a) :
    Decoder.Reads (list item) (.arr (as.map write)) as := by
  intro levels
  rw [Value.reading, Value.nesting]
  cases levels with
  | zero => rw [limited_succ_zero]; rfl
  | succ levels =>
      rw [limited_succ_succ]
      exact items_eq as fun a ha => h a ha levels

end Decode

theorem insertSorted_last (key : String) (value : α) {entries : List (String × α)}
    (h : ∀ entry ∈ entries, entry.1 < key) :
    SortedMap.insertSorted key value entries = entries ++ [(key, value)] := by
  induction entries with
  | nil => rfl
  | cons entry rest ih =>
      have hentry := h entry List.mem_cons_self
      rw [SortedMap.insertSorted, if_neg (String.lt_asymm hentry), if_pos hentry,
        ih fun other hother => h other (List.mem_cons_of_mem entry hother)]
      rfl

namespace Decode

theorem entries_eq {item : Reading → Except Fault α} {write : α → Value} {levels : Nat}
    (rest : List (String × α)) (map whole : SortedMap α)
    (hwhole : whole.entries = map.entries ++ rest)
    (h : ∀ entry ∈ rest, item (write entry.2).reading =
      limited (write entry.2).nesting levels entry.2) :
    entries item true map (Value.readingFields (rest.map fun entry => (entry.1, write entry.2))) =
      limited (Value.nestingFields (rest.map fun entry => (entry.1, write entry.2))) levels
        whole := by
  induction rest generalizing map with
  | nil =>
      have hmap : map = whole := by
        cases map
        cases whole
        simpa using hwhole.symm
      rw [hmap]
      exact (limited_zero levels whole).symm
  | cons entry rest ih =>
      -- the keys rise, so an entry goes in after all that were read before it
      have hbefore : ∀ other ∈ map.entries, other.1 < entry.1 := by
        have hsorted := whole.sorted
        rw [hwhole, List.pairwise_append] at hsorted
        exact fun other hother => hsorted.2.2 other hother entry List.mem_cons_self
      have hinsert : (map.insert entry.1 entry.2).entries = map.entries ++ [entry] :=
        insertSorted_last _ _ hbefore
      have hnext : whole.entries = (map.insert entry.1 entry.2).entries ++ rest := by
        rw [hwhole, hinsert, List.append_assoc, List.singleton_append]
      rw [List.map_cons, Value.readingFields, entries, h entry List.mem_cons_self]
      refine limited_bind _ _ levels entry.2 ?_
      exact ih _ hnext fun other hother => h other (List.mem_cons_of_mem entry hother)

theorem dictionary_reads {item : Decoder α} {write : α → Value} {map : SortedMap α}
    (h : ∀ entry ∈ map.entries, item.Reads (write entry.2) entry.2) :
    Decoder.Reads (dictionary item) (.obj (map.entries.map fun entry => (entry.1, write entry.2)))
      map := by
  intro levels
  rw [Value.reading, Value.nesting]
  cases levels with
  | zero => rw [limited_succ_zero]; rfl
  | succ levels =>
      rw [limited_succ_succ]
      exact entries_eq map.entries .empty map rfl fun entry hentry => h entry hentry levels

end Decode

namespace Layout

def keys : Layout ts → List String
  | .nil => []
  | .cons field rest => field.key :: rest.keys

/-- The fields written for a row, in the order of the layout. A field that is left out stands for
the value the layout gives it. -/
inductive Writes (levels : Nat) :
    {ts : List Type} → Layout ts → Row ts → List (String × Value) → Prop
  | nil : Writes levels .nil () []
  | given {α : Type} {ts : List Type} {field : Field α} {rest : Layout ts} {row : Row ts}
      {fields : List (String × Value)} {v : Value} {a : α}
      (hread : field.read v.reading = limited v.nesting levels a)
      (hrest : Writes levels rest row fields) :
      Writes levels (.cons field rest) (a, row) ((field.key, v) :: fields)
  | absent {α : Type} {ts : List Type} {field : Field α} {rest : Layout ts} {row : Row ts}
      {fields : List (String × Value)} {a : α} (habsent : field.absent = some a)
      (hrest : Writes levels rest row fields) : Writes levels (.cons field rest) (a, row) fields

theorem Writes.mem_keys {levels : Nat} {layout : Layout ts} {row : Row ts}
    {fields : List (String × Value)} (h : layout.Writes levels row fields) :
    ∀ field ∈ fields, field.1 ∈ layout.keys := by
  induction h with
  | nil => simp
  | given hread hrest ih =>
      intro field hfield
      rcases List.mem_cons.mp hfield with rfl | hfield
      · exact List.mem_cons_self
      · exact List.mem_cons_of_mem _ (ih field hfield)
  | absent habsent hrest ih =>
      exact fun field hfield => List.mem_cons_of_mem _ (ih field hfield)

theorem put_own (field : Field α) (rest : Layout ts) (r : Reading) (draft : Draft ts) :
    (Layout.cons field rest).put field.key r (none, draft) =
      (field.read r).map fun a => (some a, draft) :=
  if_pos (by simp)

theorem put_other {field : Field α} (rest : Layout ts) {key : String} (hkey : key ≠ field.key)
    (r : Reading) (slot : Option α) (draft : Draft ts) :
    (Layout.cons field rest).put key r (slot, draft) =
      (rest.put key r draft).map fun draft => (slot, draft) :=
  if_neg (by simpa using hkey.symm)

/-- Fields with other keys leave the first slot as it is. -/
theorem putAll_others {field : Field α} {rest : Layout ts} {fields : List (String × Value)}
    (hkeys : ∀ other ∈ fields, other.1 ≠ field.key) (slot : Option α) (draft : Draft ts) :
    (Layout.cons field rest).putAll true (slot, draft) (Value.readingFields fields) =
      (rest.putAll true draft (Value.readingFields fields)).map fun draft => (slot, draft) := by
  induction fields generalizing draft with
  | nil => rfl
  | cons first fields ih =>
      have hput := put_other rest (hkeys first List.mem_cons_self) first.2.reading slot draft
      have hnext := ih fun other hother => hkeys other (List.mem_cons_of_mem first hother)
      refine (congrArg (· >>= _) hput).trans ?_
      change _ = (rest.put first.1 first.2.reading draft >>= _).map _
      cases rest.put first.1 first.2.reading draft with
      | error fault => rfl
      | ok draft => exact hnext draft

theorem complete_cons {field : Field α} (rest : Layout ts) {slot : Option α} {a : α}
    (hslot : slot.or field.absent = some a) (draft : Draft ts) :
    (Layout.cons field rest).complete (slot, draft) =
      (rest.complete draft).map fun row => (a, row) := by
  simp only [complete, hslot]
  rfl

/-- A first slot that is settled leaves the other fields to be read. -/
theorem putAll_complete {field : Field α} (rest : Layout ts) {fields : List (String × Value)}
    (hkeys : ∀ other ∈ fields, other.1 ≠ field.key) (slot : Option α) {a : α}
    (hslot : slot.or field.absent = some a) :
    ((Layout.cons field rest).putAll true (slot, rest.blank) (Value.readingFields fields) >>=
        (Layout.cons field rest).complete) =
      (rest.read (Value.obj fields).reading).map fun row => (a, row) := by
  rw [putAll_others hkeys, Value.reading, read]
  cases rest.putAll true rest.blank (Value.readingFields fields) with
  | error fault => rfl
  | ok draft => exact complete_cons rest hslot draft

theorem Writes.read_eq {levels : Nat} {layout : Layout ts} {row : Row ts}
    {fields : List (String × Value)} (h : layout.Writes levels row fields)
    (hkeys : layout.keys.Nodup) :
    layout.read (Value.obj fields).reading = limited (Value.nestingFields fields) levels row := by
  induction h with
  | nil => exact (limited_zero levels ()).symm
  | @given α ts field rest row fields v a hread hrest ih =>
      obtain ⟨hfield, hnodup⟩ := List.nodup_cons.mp hkeys
      have hothers : ∀ other ∈ fields, other.1 ≠ field.key := fun other hother heq =>
        hfield (heq ▸ hrest.mem_keys other hother)
      have hput : (Layout.cons field rest).put field.key v.reading (none, rest.blank) =
          limited v.nesting levels (some a, rest.blank) :=
        (put_own field rest v.reading rest.blank).trans (by rw [hread, map_limited])
      have hnext := putAll_complete rest hothers (some a) rfl
      rw [ih hnodup, map_limited] at hnext
      refine (congrArg (fun first => (first >>= _) >>= _) hput).trans ?_
      refine (bind_assoc ..).trans ?_
      exact limited_bind _ _ levels _ hnext
  | @absent α ts field rest row fields a habsent hrest ih =>
      obtain ⟨hfield, hnodup⟩ := List.nodup_cons.mp hkeys
      have hothers : ∀ other ∈ fields, other.1 ≠ field.key := fun other hother heq =>
        hfield (heq ▸ hrest.mem_keys other hother)
      calc
        _ = (rest.read (Value.obj fields).reading).map fun row => (a, row) :=
          putAll_complete rest hothers none habsent
        _ = limited (Value.nestingFields fields) levels (a, row) := by
          rw [ih hnodup, map_limited]

end Layout

theorem Decode.record_reads {layout : Nat → Layout ts} {make : Row ts → α} {row : Row ts}
    {fields : List (String × Value)} {a : α} (hkeys : ∀ levels, (layout levels).keys.Nodup)
    (h : ∀ levels, (layout levels).Writes levels row fields) (hmake : make row = a) :
    Decoder.Reads (record layout make) (.obj fields) a := by
  intro levels
  rw [Value.nesting]
  cases levels with
  | zero => rw [limited_succ_zero]; rfl
  | succ levels =>
      rw [record, (h levels).read_eq (hkeys levels), map_limited, limited_succ_succ, hmake]

end CallTrace.Json
