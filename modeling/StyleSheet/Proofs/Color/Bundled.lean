import StyleSheet.Proofs.Color.Loads
import StyleSheet.Proofs.Color.Meaning
import StyleSheet.Proofs.Loading

namespace StyleSheet

namespace Color

def isWord (t : Text) : Bool :=
  t.all Char.isLower

theorem lower_of_isWord {t : Text} (h : isWord t = true) : Text.lower t = t := by
  have same : ∀ c ∈ t, c.toLower = id c := by
    intro c hc
    apply Char.toLower_eq_of_not_isUpper
    have hl := List.all_eq_true.mp h c hc
    intro hu
    simp only [Char.isLower, Char.isUpper, Bool.and_eq_true, decide_eq_true_eq] at hl hu
    exact absurd (UInt32.le_trans hl.1 hu.2) (by decide)
  rw [Text.lower, List.map_congr_left same, List.map_id]

theorem isPlain_of_isWord {t : Text} (h : isWord t = true) : isPlain t = true := by
  have letters : ∀ c ∈ t, c.isLower = true := List.all_eq_true.mp h
  refine isPlain_iff.mpr ⟨?_, ?_⟩
  · intro he
    have hw : isWord (t.take 4) = true :=
      List.all_eq_true.mpr fun c hc => letters c (List.mem_of_mem_take hc)
    rw [lower_of_isWord hw] at he
    have hm : '(' ∈ t.take 4 := by
      rw [he]
      decide
    cases letters '(' (List.mem_of_mem_take hm)
  · intro he
    cases letters '#' (List.mem_of_mem_head? he)

namespace Palette

def table (listed : List (String × String)) : Table Text :=
  Table.ofEntries ((toTexts listed).map lowerKey)

/-- Names are words for codes, full codes have words as short names, no word is both a name and a
short name or a short name twice. Both lists are in the order of their keys. -/
structure Sound (names shortNames : List (String × String)) : Prop where
  name_chain : ((toTexts names).map fun entry => Text.lower entry.1).IsChain (· < ·)
  short_chain : ((toTexts shortNames).map fun entry => Text.lower entry.1).IsChain (· < ·)
  name_word : ∀ pair ∈ names, isWord pair.1.toList = true
  name_code : ∀ pair ∈ names, Hex.isCode pair.2.toList = true
  short_word : ∀ pair ∈ shortNames, isWord pair.2.toList = true
  short_code : ∀ pair ∈ shortNames, Hex.isFull (Text.lower pair.1.toList) = true
  short_inj : ∀ pair ∈ shortNames, ∀ other ∈ shortNames, other.2 = pair.2 → other.1 = pair.1
  disjoint : ∀ pair ∈ shortNames, ∀ other ∈ names, other.1 ≠ pair.2

theorem nodupLower_of_chain {listed : List (String × String)}
    (h : ((toTexts listed).map fun entry => Text.lower entry.1).IsChain (· < ·)) :
    NodupLower (toTexts listed) :=
  (List.isChain_iff_pairwise.mp h).imp ne_of_lt

theorem table_of_chain {listed : List (String × String)}
    (h : ((toTexts listed).map fun entry => Text.lower entry.1).IsChain (· < ·)) :
    table listed = (toTexts listed).map lowerKey := by
  apply Table.ofEntries_eq_self
  rw [Table.Ascending, List.pairwise_map]
  exact List.pairwise_map.mp (List.isChain_iff_pairwise.mp h)

theorem mem_table {listed : List (String × String)} {entry : Text × Text}
    (h : entry ∈ table listed) :
    ∃ pair ∈ listed, entry = (Text.lower pair.1.toList, pair.2.toList) := by
  obtain ⟨texts, ht, he⟩ := List.mem_map.mp (Table.mem_ofEntries h)
  obtain ⟨pair, hp, rfl⟩ := List.mem_map.mp ht
  exact ⟨pair, hp, he.symm⟩

theorem load_of_chain {listed : List (String × String)} {name : TableName}
    (chain : ((toTexts listed).map fun entry => Text.lower entry.1).IsChain (· < ·))
    (sound : ∀ pair ∈ listed, name.fault? (Text.lower pair.1.toList, pair.2.toList) = none)
    (wording : Wording) (orders : Orders) :
    (Entries.listed (toTexts listed)).load name wording orders = .ok (table listed) := by
  have lowers := lowered_ofEntries (nodupLower_of_chain chain) (orders.lowering name)
  refine Entries.load_eq_ok_iff.mpr ⟨_, rfl, lowers.symm, ?_⟩
  intro entry hm
  obtain ⟨pair, hp, rfl⟩ := mem_table hm
  exact sound pair hp

namespace Sound

variable {names shortNames : List (String × String)}

theorem load (hs : Sound names shortNames) (wording : Wording) (orders : Orders) :
    Source.load ⟨.listed (toTexts names), .listed (toTexts shortNames)⟩ wording orders =
      .ok ⟨table names, table shortNames⟩ := by
  refine Source.load_eq_ok_iff.mpr
    ⟨load_of_chain hs.name_chain (fun pair hp => ?_) wording orders,
      load_of_chain hs.short_chain (fun pair hp => ?_) wording orders⟩
  · exact if_pos (hs.name_code pair hp)
  · exact if_pos (hs.short_code pair hp)

theorem get?_short (hs : Sound names shortNames) {pair : String × String}
    (hp : pair ∈ shortNames) : (table names).get? pair.2.toList = none := by
  cases hg : (table names).get? pair.2.toList with
  | none => rfl
  | some value =>
    obtain ⟨other, ho, he⟩ := mem_table (Table.mem_of_get? hg)
    rw [lower_of_isWord (hs.name_word other ho)] at he
    have hw : other.1 = pair.2 := String.toList_inj.mp (Prod.mk.inj he).1.symm
    exact absurd hw (hs.disjoint pair hp other ho)

/-- Read backwards, the short names lead to the codes they are short for. -/
theorem named?_short (hs : Sound names shortNames) {entry : Text × Text}
    (hm : entry ∈ table shortNames) :
    Tables.named? ⟨table names, table shortNames⟩ entry.2 = Hex.color? entry.1 := by
  obtain ⟨pair, hp, rfl⟩ := mem_table hm
  have hw := lower_of_isWord (hs.short_word pair hp)
  rw [Tables.named?]
  simp only [hw, hs.get?_short hp]
  cases hf : (table shortNames).find? (fun entry => Text.lower entry.2 == pair.2.toList) with
  | none =>
    have hn := List.find?_eq_none.mp hf _ hm
    simp [hw] at hn
  | some found =>
    have he := List.find?_some hf
    obtain ⟨other, ho, rfl⟩ := mem_table (List.mem_of_find?_eq_some hf)
    have hsame : other.2.toList = pair.2.toList := by
      simpa [lower_of_isWord (hs.short_word other ho)] using he
    rw [hs.short_inj pair hp other ho (String.toList_inj.mp hsame)]
    rfl

theorem consistent (hs : Sound names shortNames) :
    Tables.Consistent ⟨table names, table shortNames⟩ where
  name_plain entry hm := by
    obtain ⟨pair, hp, rfl⟩ := mem_table hm
    have hw := hs.name_word pair hp
    rw [lower_of_isWord hw]
    exact isPlain_of_isWord hw
  name_code entry hm := by
    obtain ⟨pair, hp, rfl⟩ := mem_table hm
    exact hs.name_code pair hp
  short_plain entry hm := by
    obtain ⟨pair, hp, rfl⟩ := mem_table hm
    exact isPlain_of_isWord (hs.short_word pair hp)
  short_color entry hm := hs.named?_short hm

end Sound

theorem sound : Sound names shortNames where
  name_chain := by decide +kernel
  short_chain := by decide +kernel
  name_word := by decide +kernel
  name_code := by decide +kernel
  short_word := by decide +kernel
  short_code := by decide +kernel
  short_inj := by decide +kernel
  disjoint := by decide +kernel

end Palette

/-- The tables that come with the library, once they are loaded. -/
def Tables.bundled : Tables where
  names := Palette.table Palette.names
  shortNames := Palette.table Palette.shortNames

theorem Tables.bundled_eq :
    Tables.bundled =
      ⟨(Palette.toTexts Palette.names).map lowerKey,
        (Palette.toTexts Palette.shortNames).map lowerKey⟩ := by
  rw [Tables.bundled, Palette.table_of_chain Palette.sound.name_chain,
    Palette.table_of_chain Palette.sound.short_chain]

/-- The bundled tables load whatever the orders. -/
theorem Source.load_bundled (wording : Wording) (orders : Orders) :
    Source.load .bundled wording orders = .ok Tables.bundled :=
  Palette.sound.load wording orders

theorem Tables.consistent_bundled : Tables.bundled.Consistent :=
  Palette.sound.consistent

end Color

theorem Holder.serves_bundled {holder : Holder} (source : holder.source = .bundled)
    (loaded : ∀ t ∈ holder.loaded, t = Color.Tables.bundled) :
    holder.Serves Color.Tables.bundled := by
  have load (orders : Color.Orders) :
      holder.source.load holder.wording orders = .ok Color.Tables.bundled := by
    rw [source]
    exact Color.Source.load_bundled holder.wording orders
  refine ⟨⟨.ascending, load .ascending⟩, ?_⟩
  cases hl : holder.loaded with
  | some found =>
    rw [Holder.served_of_loaded hl, loaded found hl]
  | none =>
    rw [Holder.served_of_unloaded hl]
    exact load (holder.orders 0)

/-- With the bundled tables, loaded or still to load, shortening succeeds and keeps the colour of
every literal, and it leaves alone what has no colour. -/
theorem Session.normalize_keeps_color (options : Color.ColorOptions) (literal : Text)
    (session : Session) (source : session.holder.source = .bundled)
    (loaded : ∀ t ∈ session.holder.loaded, t = Color.Tables.bundled) :
    ∃ result after, session.perform (Session.normalize options literal) = (.ok result, after) ∧
      Color.Tables.bundled.color? result = Color.Tables.bundled.color? literal ∧
      (Color.Tables.bundled.color? literal = none → result = literal) := by
  have serves := Holder.serves_bundled source loaded
  obtain ⟨after, hp, -⟩ := perform_normalize serves options literal
  have hu : ∀ t ∈ (if options.needsTables then some Color.Tables.bundled else none),
      t = Color.Tables.bundled := by
    intro t ht
    split at ht
    · exact (Option.mem_some.mp ht).symm
    · cases ht
  obtain ⟨hc, hn⟩ := Color.Tables.consistent_bundled.color?_normalize hu options literal
  exact ⟨_, after, hp, hc, hn⟩

theorem Session.normalize_keeps_red :
    let session : Session := ⟨.orderly .bundled fun _ => "", #[]⟩
    let literal := "rgb(255,0,0)".toList
    Color.Tables.bundled.color? literal = some ⟨255, 0, 0⟩ ∧
      ∃ after, session.perform (Session.normalize .all literal) = (.ok "red".toList, after) ∧
        Color.Tables.bundled.color? "red".toList = Color.Tables.bundled.color? literal := by
  intro session literal
  have serves : session.holder.Serves Color.Tables.bundled :=
    Holder.serves_bundled rfl fun _ h => nomatch h
  obtain ⟨result, after, hp, hc, -⟩ :=
    Session.normalize_keeps_color .all literal session rfl fun _ h => nomatch h
  obtain ⟨_, hn, -⟩ := perform_normalize serves .all literal
  have shortened : Color.normalize .all (some Color.Tables.bundled) literal = "red".toList := by
    rw [Color.Tables.bundled_eq]
    decide +kernel
  have red : result = "red".toList :=
    (Except.ok.inj (congrArg Prod.fst (hp.symm.trans hn))).trans shortened
  rw [red] at hp hc
  exact ⟨by rw [Color.Tables.bundled_eq]; decide +kernel, after, hp, hc⟩

end StyleSheet
