import StyleSheet.Proofs.Color.NormalForm
import StyleSheet.Proofs.Color.Bundled
import StyleSheet.Proofs.Json.TextObjects

namespace StyleSheet

namespace Json

/-- The last member of this name has this value. -/
def Gives (members : List (Text × Text)) (key value : Text) : Prop :=
  ∃ front back, members = front ++ (key, value) :: back ∧ ∀ m ∈ back, m.1 ≠ key

variable {members : List (Text × Text)} {key value : Text}

theorem not_gives_nil : ¬Gives [] key value := by
  rintro ⟨front, back, h, -⟩
  cases front <;> cases h

theorem gives_concat (m : Text × Text) :
    Gives (members ++ [m]) key value ↔ m = (key, value) ∨ m.1 ≠ key ∧ Gives members key value := by
  constructor
  · rintro ⟨front, back, h, hback⟩
    induction back using List.reverseRecOn with
    | nil =>
      have hm := List.append_inj_right' h rfl
      exact .inl (List.cons.inj hm).1
    | append_singleton back last _ =>
      rw [← List.cons_append, ← List.append_assoc] at h
      have hm := (List.cons.inj (List.append_inj_right' h rfl)).1
      refine .inr ⟨?_, front, back, List.append_inj_left' h rfl, ?_⟩
      · rw [hm]
        exact hback last (by simp)
      · intro n hn
        exact hback n (by simp [hn])
  · rintro (rfl | ⟨hkey, front, back, rfl, hback⟩)
    · exact ⟨members, [], rfl, by simp⟩
    · refine ⟨front, back ++ [m], by simp, ?_⟩
      intro n hn
      obtain hn | hn := List.mem_append.mp hn
      · exact hback n hn
      · rw [List.mem_singleton.mp hn]
        exact hkey

/-- No two names differ in case alone. -/
def Apart (members : List (Text × Text)) : Prop :=
  ∀ m ∈ members, ∀ n ∈ members, Text.lower m.1 = Text.lower n.1 → m.1 = n.1

end Json

namespace Table

variable {entries : List (Text × Text)} {key value : Text}

theorem get?_ofEntries : (ofEntries entries).get? key = some value ↔ Json.Gives entries key value := by
  induction entries using List.reverseRecOn with
  | nil => exact iff_of_false (by simp [ofEntries, get?]) Json.not_gives_nil
  | append_singleton entries m ih =>
    rw [ofEntries, List.foldl_append, List.foldl_cons, List.foldl_nil, get?_insert, Json.gives_concat,
      ← ih]
    split
    next hkey =>
      obtain ⟨name, found⟩ := m
      cases hkey
      simp
    next hkey =>
      constructor
      · exact fun h => .inr ⟨hkey, h⟩
      · rintro (rfl | ⟨-, h⟩)
        · exact absurd rfl hkey
        · exact h

/-- The entries of a table are the keys with their last values. -/
theorem mem_ofEntries_iff {entries : List (Text × Text)} {key value : Text} :
    (key, value) ∈ ofEntries entries ↔ Json.Gives entries key value := by
  rw [← get?_ofEntries]
  exact ⟨get?_of_mem (ascending_ofEntries entries).nodup, mem_of_get?⟩

end Table

namespace Color

open Json

variable {text : Text} {members : List (Text × Text)} {written table : Table Text}
  {wording : Wording} {orders : Orders} {order : Table.Order}

theorem foldlM_insert (members : List (Text × Text)) (table : Table Text) :
    members.foldlM (fun table m => some (table.insert m.1 m.2)) table =
      some (members.foldl (fun table m => table.insert m.1 m.2) table) := by
  induction members generalizing table with
  | nil => rfl
  | cons m members ih => exact ih _

theorem toOption_read_object_text (h : IsObjectText IsString text members) :
    (Json.read Entries.reader [] text).toOption = some (Table.ofEntries members) := by
  have hands (key : Text) : Cursor.Hands Entries.reader [.object] IsString
      (Entries.reader.member · key) fun table value => some (table.insert key value) :=
    Cursor.hands_text [.object] fun (table : Table Text) => table.insert key
  exact (toOption_read_object hands h).trans (foldlM_insert members [])

/-- A text is read as a table just when it writes an object of strings. -/
theorem read_json_iff :
    (Entries.json text).read wording = .ok written ↔
      ∃ members, IsObjectText IsString text members ∧ written = Table.ofEntries members := by
  have mapped : (Entries.json text).read wording = .ok written ↔
      Json.read Entries.reader [] text = .ok written := by
    rw [Entries.read]
    cases Json.read Entries.reader [] text <;> simp [Except.mapError]
  rw [mapped]
  constructor
  · intro h
    obtain ⟨members, hm⟩ := exists_isObjectText_of_read ⟨fun _ _ => ⟨_, rfl⟩, fun _ => rfl⟩ h
    have same := toOption_read_object_text hm
    rw [h] at same
    exact ⟨members, hm, Option.some.inj same⟩
  · rintro ⟨members, hm, rfl⟩
    exact ok_of_toOption (toOption_read_object_text hm)

theorem nodupLower_ofEntries (ha : Apart members) : NodupLower (Table.ofEntries members) := by
  have keys := (Table.ascending_ofEntries members).nodup
  have lowers := keys.map_on (f := Text.lower) fun first hf second hs he => by
    obtain ⟨m, hm, rfl⟩ := List.mem_map.mp hf
    obtain ⟨n, hn, rfl⟩ := List.mem_map.mp hs
    exact ha m (Table.mem_ofEntries hm) n (Table.mem_ofEntries hn) he
  rwa [List.map_map] at lowers

/-- Names in lower case have the values they had before, if no two of them become one. -/
theorem mem_lowered_iff (ha : Apart members) {key value : Text} :
    (key, value) ∈ lowered order (Table.ofEntries members) ↔
      ∃ name, Gives members name value ∧ Text.lower name = key := by
  rw [(perm_lowered (nodupLower_ofEntries ha) order).mem_iff, List.mem_map]
  constructor
  · rintro ⟨⟨name, _⟩, hm, ⟨⟩⟩
    exact ⟨name, Table.mem_ofEntries_iff.mp hm, rfl⟩
  · rintro ⟨name, hg, rfl⟩
    exact ⟨(name, value), Table.mem_ofEntries_iff.mpr hg, rfl⟩

/-- A text of an object of strings that stand for codes. -/
def IsNamesText (text : Text) : Prop :=
  ∃ members, IsObjectText IsString text members ∧
    ∀ key value, Gives members key value → Hex.isCode value = true

/-- A text of an object of strings whose names are full codes. -/
def IsShortNamesText (text : Text) : Prop :=
  ∃ members, IsObjectText IsString text members ∧
    ∀ key value, Gives members key value → Hex.isFull key = true

theorem forall_mem_lowered (ha : Apart members) (order : Table.Order) (p : Text → Text → Prop) :
    (∀ entry ∈ lowered order (Table.ofEntries members), p entry.1 entry.2) ↔
      ∀ key value, Gives members key value → p (Text.lower key) value := by
  constructor
  · intro h key value hg
    exact h _ ((mem_lowered_iff ha).mpr ⟨key, hg, rfl⟩)
  · rintro h ⟨key, value⟩ hmem
    obtain ⟨name, hg, rfl⟩ := (mem_lowered_iff ha).mp hmem
    exact h name value hg

namespace Entries

/-- A text loads just when it writes an object of strings none of which is at fault. -/
theorem exists_load_json_iff {name : TableName}
    (ha : ∀ members, IsObjectText IsString text members → Apart members) :
    (∃ table, (Entries.json text).load name wording orders = .ok table) ↔
      ∃ members, IsObjectText IsString text members ∧
        ∀ key value, Gives members key value → name.fault? (Text.lower key, value) = none := by
  have sound (members : List (Text × Text)) (hm : IsObjectText IsString text members) :=
    forall_mem_lowered (ha members hm) (orders.lowering name)
      fun key value => name.fault? (key, value) = none
  simp only [load_eq_ok_iff]
  constructor
  · rintro ⟨_, written, hread, rfl, hgood⟩
    obtain ⟨members, hm, rfl⟩ := read_json_iff.mp hread
    exact ⟨members, hm, (sound members hm).mp hgood⟩
  · rintro ⟨members, hm, hgood⟩
    exact ⟨_, _, read_json_iff.mpr ⟨members, hm, rfl⟩, rfl, (sound members hm).mpr hgood⟩

end Entries

theorem exists_load_names_iff (ha : ∀ members, IsObjectText IsString text members → Apart members) :
    (∃ table, (Entries.json text).load .names wording orders = .ok table) ↔ IsNamesText text := by
  simp [Entries.exists_load_json_iff ha, IsNamesText, TableName.fault?]

theorem exists_load_shortNames_iff
    (ha : ∀ members, IsObjectText IsString text members → Apart members) :
    (∃ table, (Entries.json text).load .shortNames wording orders = .ok table) ↔
      IsShortNamesText text := by
  simp [Entries.exists_load_json_iff ha, IsShortNamesText, TableName.fault?, Hex.isFull_lower_eq]

theorem get?_iff_of_load {name : TableName} (ha : Apart members)
    (hm : IsObjectText IsString text members)
    (h : (Entries.json text).load name wording orders = .ok table) (literal value : Text) :
    table.get? (Text.lower literal) = some value ↔
      ∃ key, Gives members key value ∧ Text.lower key = Text.lower literal := by
  obtain ⟨written, hread, rfl, -⟩ := Entries.load_eq_ok_iff.mp h
  have same : written = Table.ofEntries members :=
    Except.ok.inj (hread.symm.trans (read_json_iff.mpr ⟨members, hm, rfl⟩))
  rw [same, ← mem_lowered_iff ha]
  exact ⟨Table.mem_of_get?, Table.get?_of_mem (Table.ascending_ofEntries _).nodup⟩

/--
Tables load just when both texts are objects of strings that pass their checks, and the names are
checked first. In what is loaded a literal is looked up whatever the case of its letters.
-/
theorem json_tables_load_and_look_up {names shortNames : Text}
    (hn : ∀ members, IsObjectText IsString names members → Apart members)
    (hs : ∀ members, IsObjectText IsString shortNames members → Apart members)
    (wording : Wording) (orders : Orders) :
    ((∃ tables, (Source.json names shortNames).load wording orders = .ok tables) ↔
      IsNamesText names ∧ IsShortNamesText shortNames) ∧
    (∀ error, (Source.json names shortNames).load wording orders = .error error →
      (error.table.label = "long2hex" ↔ ¬IsNamesText names)) ∧
    ∀ tables, (Source.json names shortNames).load wording orders = .ok tables →
      ∀ members others, IsObjectText IsString names members →
        IsObjectText IsString shortNames others → ∀ literal value,
          (Stage.nameToHex.apply (some tables) literal = some value ↔
            ∃ key, Gives members key value ∧ Text.lower key = Text.lower literal) ∧
          (Stage.hexToShortName.apply (some tables) literal = some value ↔
            ∃ key, Gives others key value ∧ Text.lower key = Text.lower literal) := by
  refine ⟨?_, ?_, ?_⟩
  · rw [← exists_load_names_iff hn, ← exists_load_shortNames_iff hs]
    simp only [Source.load_eq_ok_iff]
    constructor
    · rintro ⟨tables, hnames, hshort⟩
      exact ⟨⟨_, hnames⟩, ⟨_, hshort⟩⟩
    · rintro ⟨⟨table, hnames⟩, ⟨other, hshort⟩⟩
      exact ⟨⟨table, other⟩, hnames, hshort⟩
  · intro error h
    have label : error.table.label = "long2hex" ↔ error.table = .names := by
      cases error.table <;> decide
    rw [label, ← exists_load_names_iff hn]
    exact Source.table_of_load h
  · intro tables h members others hm ho literal value
    obtain ⟨hnames, hshort⟩ := Source.load_eq_ok_iff.mp h
    refine ⟨get?_iff_of_load (hn members hm) hm hnames literal value, ?_⟩
    change tables.hexToShortName? literal = some value ↔ _
    rw [← get?_iff_of_load (hs others ho) ho hshort literal value, Tables.hexToShortName?]
    split
    next => rfl
    next hfull =>
      refine iff_of_false (fun he => by cases he) ?_
      intro hget
      have full := Source.isFull_of_load h _ (Table.mem_of_get? hget)
      exact hfull ((Hex.isFull_lower_eq literal).symm.trans full)

/-- A name that is given twice, first to something that is no code. -/
def repeatedNames : Text :=
  "\x7b\"Navy\":\"\", \"Navy\":\"#008\"\x7d".toList

def redName : Text :=
  "\x7b\"#FF0000\":\"r\\u0065d\"\x7d".toList

theorem isObjectText_repeatedNames : IsObjectText IsString repeatedNames
    [("Navy".toList, []), ("Navy".toList, "#008".toList)] :=
  isObjectText_iff_read.mpr (by decide +kernel)

theorem isObjectText_redName : IsObjectText IsString redName
    [("#FF0000".toList, "red".toList)] :=
  isObjectText_iff_read.mpr (by decide +kernel)

theorem apart_of_isObjectText {known : List (Text × Text)} (h : IsObjectText IsString text known)
    (ha : Apart known) : ∀ members, IsObjectText IsString text members → Apart members := by
  intro members hm
  have same := (isObjectText_iff_read.mp h).symm.trans (isObjectText_iff_read.mp hm)
  cases same
  exact ha

theorem json_tables_look_up_navy :
    ∃ tables, (Source.json repeatedNames redName).load (fun _ => "") .ascending = .ok tables ∧
      Stage.nameToHex.apply (some tables) "NAVY".toList = some "#008".toList ∧
      Stage.hexToShortName.apply (some tables) "#ff0000".toList = some "red".toList := by
  have navy := apart_of_isObjectText isObjectText_repeatedNames (by unfold Apart; decide +kernel)
  have red := apart_of_isObjectText isObjectText_redName (by unfold Apart; decide +kernel)
  obtain ⟨-, -, hlook⟩ := json_tables_load_and_look_up navy red (fun _ => "") .ascending
  have loads : (Source.json repeatedNames redName).load (fun _ => "") .ascending =
      .ok ⟨[("navy".toList, "#008".toList)], [("#ff0000".toList, "red".toList)]⟩ := by
    decide +kernel
  have look := hlook _ loads _ _ isObjectText_repeatedNames isObjectText_redName
  refine ⟨_, loads, (look _ _).1.mpr ⟨"Navy".toList, ?_, by decide +kernel⟩,
    (look _ _).2.mpr ⟨"#FF0000".toList, ?_, by decide +kernel⟩⟩
  · exact ⟨[("Navy".toList, [])], [], rfl, by simp⟩
  · exact ⟨[], [], rfl, by simp⟩

end Color

end StyleSheet
