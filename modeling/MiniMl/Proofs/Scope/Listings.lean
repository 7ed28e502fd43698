import Mathlib.Data.String.Basic
import MiniMl.Proofs.Scope.TopLevel

/-! # Listings of a scope

Names that end in the mark of tags stand for tags, all others for themselves. Where symbols have
names without the mark, each is bound under its own name or as the tag of it, and so the listings of
a scope hold every symbol of a namespace once, in the order of the names.
-/

namespace MiniMl

namespace Key

/-- The names that stand for tags. -/
def Marked (name : String) : Prop := "@:tag".toList <:+ name.toList

instance (name : String) : Decidable (Marked name) :=
  inferInstanceAs (Decidable ("@:tag".toList <:+ name.toList))

theorem stem?_eq_some {cs stem : List Char} :
    stem? cs = some stem ↔ cs = "@:tag".toList.reverse ++ stem.reverse := by
  constructor
  · intro h
    unfold stem? at h
    split at h
    · cases h
      simp
    · cases h
  · rintro rfl
    simp [stem?]

theorem ofName_marked (name : String) : ofName (name ++ "@:tag") = .tag name := by
  have hstem : stem? (name ++ "@:tag").toList.reverse = some name.toList := by
    rw [stem?_eq_some, String.toList_append, List.reverse_append]
  simp only [ofName, hstem, String.ofList_toList]

theorem ofName_of_not_marked {name : String} (h : ¬ Marked name) : ofName name = .plain name := by
  unfold ofName
  split
  · rename_i stem hstem
    refine absurd ⟨stem, ?_⟩ h
    have hrev := congrArg List.reverse (stem?_eq_some.mp hstem)
    simpa using hrev.symm
  · rfl

end Key

theorem names_increase {α : Type} (name : α → String) {xs : List α} (h : (xs.map name).Nodup) :
    ((xs.mergeSort fun x y => name x ≤ name y).map name).Pairwise (· < ·) := by
  have hmap : (xs.mergeSort fun x y => name x ≤ name y).map name =
      (xs.map name).mergeSort fun m n => m ≤ n := List.map_mergeSort fun _ _ _ _ => rfl
  have hle : ((xs.map name).mergeSort fun m n => m ≤ n).Pairwise
      fun m n => decide (m ≤ n) = true := by
    apply List.pairwise_mergeSort
    · intro l m n hlm hmn
      simp only [decide_eq_true_eq] at hlm hmn ⊢
      exact le_trans hlm hmn
    · intro m n
      simpa using le_total m n
  have hne := (List.mergeSort_perm (xs.map name) fun m n => m ≤ n).nodup_iff.mpr h
  rw [hmap]
  refine (hle.and hne).imp ?_
  rintro m n ⟨hmn, hdiffer⟩
  exact lt_of_le_of_ne (of_decide_eq_true hmn) hdiffer

namespace Bindings

variable {b c : Bindings} {key : Key} {x : Symbol} {name : String}

theorem find?_isSome (h : (key, x) ∈ b) : (b.find? key).isSome := by
  induction b with
  | nil => cases h
  | cons entry b ih =>
    rw [find?, List.lookup_cons]
    split
    · rfl
    · rename_i hkey
      rcases List.mem_cons.mp h with rfl | h
      · simp at hkey
      · exact ih h

theorem append_append (b c : Bindings) : (b.append c).append c = b.append c := by
  have hnone : (c.filter fun entry => ((b.append c).find? entry.1).isNone) = [] := by
    apply List.filter_eq_nil_iff.mpr
    rintro ⟨key, x⟩ hentry
    have hsome := find?_isSome hentry
    simp [find?_append, Option.isNone_iff_eq_none, Option.isSome_iff_ne_none.mp hsome]
  rw [append, hnone, List.append_nil]

/-- No key is bound twice, and a symbol is bound under its own name or as the tag of it. -/
structure Tidy (b : Bindings) : Prop where
  distinct : b.Distinct
  unmarked : ∀ entry ∈ b, ¬ Key.Marked entry.2.name
  named : ∀ entry ∈ b, entry.1 = .plain entry.2.name ∨ entry.1 = .tag entry.2.name

theorem Tidy.nil : Tidy [] := ⟨List.nodup_nil, by simp, by simp⟩

theorem Tidy.insert (h : b.Tidy) (hx : ¬ Key.Marked x.name)
    (hkey : key = .plain x.name ∨ key = .tag x.name) : (b.insert key x).Tidy := by
  constructor
  · exact h.distinct.insert key x
  · intro entry hentry
    rcases List.mem_cons.mp hentry with rfl | hentry
    · exact hx
    · exact h.unmarked entry (List.mem_of_mem_filter hentry)
  · intro entry hentry
    rcases List.mem_cons.mp hentry with rfl | hentry
    · exact hkey
    · exact h.named entry (List.mem_of_mem_filter hentry)

theorem Tidy.append (hb : b.Tidy) (hc : c.Tidy) : (b.append c).Tidy := by
  have hmem : ∀ entry ∈ b.append c, entry ∈ b ∨ entry ∈ c := by
    intro entry hentry
    rcases List.mem_append.mp hentry with hentry | hentry
    · exact .inl hentry
    · exact .inr (List.mem_of_mem_filter hentry)
  constructor
  · unfold Distinct Bindings.append
    rw [List.map_append]
    refine List.Nodup.append hb.distinct (hc.distinct.sublist (List.filter_sublist.map _)) ?_
    intro key hleft hright
    obtain ⟨⟨_, x⟩, hx, rfl⟩ := List.mem_map.mp hleft
    obtain ⟨⟨_, y⟩, hy, rfl⟩ := List.mem_map.mp hright
    have hsome := find?_isSome hx
    have hnone := (List.mem_filter.mp hy).2
    rw [Option.isNone_iff_eq_none] at hnone
    rw [hnone] at hsome
    cases hsome
  · intro entry hentry
    exact (hmem entry hentry).elim (hb.unmarked entry) (hc.unmarked entry)
  · intro entry hentry
    exact (hmem entry hentry).elim (hb.named entry) (hc.named entry)

theorem Tidy.plain_named (h : b.Tidy) (hx : (.plain name, x) ∈ b) : x.name = name := by
  rcases h.named _ hx with hkey | hkey
  · exact (Key.plain.inj hkey).symm
  · cases hkey

theorem Tidy.tag_named (h : b.Tidy) (hx : (.tag name, x) ∈ b) : x.name = name := by
  rcases h.named _ hx with hkey | hkey
  · cases hkey
  · exact (Key.tag.inj hkey).symm

theorem mem_plain {entry : Key × Symbol} :
    entry ∈ b.plain ↔ entry ∈ b ∧ ∃ name, entry.1 = .plain name := by
  simp only [plain, List.mem_mergeSort, List.mem_filter]
  constructor
  · rintro ⟨hmem, htag⟩
    refine ⟨hmem, ?_⟩
    cases hkey : entry.1 with
    | plain name => exact ⟨name, rfl⟩
    | tag name => simp [hkey, Key.isTag] at htag
  · rintro ⟨hmem, name, hkey⟩
    exact ⟨hmem, by simp [hkey, Key.isTag]⟩

theorem Tidy.mem_plain_map (h : b.Tidy) : x ∈ b.plain.map (·.2) ↔ (.plain x.name, x) ∈ b := by
  constructor
  · intro hx
    obtain ⟨⟨key, y⟩, hentry, rfl⟩ := List.mem_map.mp hx
    obtain ⟨hmem, name, rfl⟩ := mem_plain.mp hentry
    rwa [h.plain_named hmem]
  · intro hx
    exact List.mem_map.mpr ⟨_, mem_plain.mpr ⟨hx, x.name, rfl⟩, rfl⟩

theorem Tidy.mem_tags (h : b.Tidy) : x ∈ b.tags ↔ (.tag x.name, x) ∈ b := by
  rw [Bindings.mem_tags]
  constructor
  · rintro ⟨name, hx⟩
    rwa [h.tag_named hx]
  · intro hx
    exact ⟨x.name, hx⟩

theorem Tidy.names_nodup (h : b.Tidy) (key : String → Key) {keep : Key × Symbol → Bool}
    (hkey : ∀ entry ∈ b, keep entry → entry.1 = key entry.2.name) :
    ((b.filter keep).map fun entry => entry.2.name).Nodup := by
  have hkeys : (b.filter keep).map (·.1) =
      ((b.filter keep).map fun entry => entry.2.name).map key := by
    rw [List.map_map]
    apply List.map_congr_left
    intro entry hentry
    obtain ⟨hmem, hkeep⟩ := List.mem_filter.mp hentry
    exact hkey entry hmem hkeep
  apply List.Nodup.of_map key
  rw [← hkeys]
  exact h.distinct.sublist (List.filter_sublist.map _)

theorem Tidy.plain_key (h : b.Tidy) {entry : Key × Symbol} (hentry : entry ∈ b.plain) :
    entry.1 = .plain entry.2.name := by
  obtain ⟨hmem, name, hkey⟩ := mem_plain.mp hentry
  rcases h.named entry hmem with hnamed | hnamed
  · exact hnamed
  · cases hkey.symm.trans hnamed

theorem Tidy.plain_increase (h : b.Tidy) :
    ((b.plain.map (·.2)).map (·.name)).Pairwise (· < ·) := by
  have hnames : ∀ entry ∈ b, (!entry.1.isTag) = true → entry.1 = .plain entry.2.name := by
    intro entry hentry htag
    rcases h.named entry hentry with hkey | hkey
    · exact hkey
    · simp [hkey, Key.isTag] at htag
  have hnodup : ((b.filter (!·.1.isTag)).map fun entry => entry.1.text).Nodup := by
    rw [List.map_congr_left fun entry hentry => ?_]
    · exact h.names_nodup .plain hnames
    · obtain ⟨hmem, hkeep⟩ := List.mem_filter.mp hentry
      rw [hnames entry hmem hkeep, Key.text]
  have hincrease := names_increase (fun entry : Key × Symbol => entry.1.text) hnodup
  rw [List.map_map]
  rwa [List.map_congr_left fun entry hentry => ?_]
  rw [h.plain_key hentry, Key.text]
  rfl

theorem Tidy.tags_increase (h : b.Tidy) : (b.tags.map (·.name)).Pairwise (· < ·) := by
  refine names_increase Symbol.name ?_
  rw [List.map_map]
  refine h.names_nodup .tag ?_
  intro entry hentry htag
  rcases h.named entry hentry with hkey | hkey
  · simp [hkey, Key.isTag] at htag
  · exact hkey

end Bindings

namespace Arena

variable {a : Arena} {id : ScopeId}

/-- All that is bound in one namespace of a scope, once each and in the order of the names. -/
structure Listing (xs : List Symbol) (find? : String → Option Symbol) : Prop where
  increase : (xs.map (·.name)).Pairwise (· < ·)
  mem : ∀ x, x ∈ xs ↔ ¬ Key.Marked x.name ∧ find? x.name = some x
  named : ∀ name x, ¬ Key.Marked name → find? name = some x → x.name = name

theorem listing_plain (h : (a.bindings id).Tidy) :
    Listing ((a.bindings id).plain.map (·.2)) (a.findHere? id) := by
  have hfind : ∀ name x, ¬ Key.Marked name →
      (a.findHere? id name = some x ↔ (.plain name, x) ∈ a.bindings id) := by
    intro name x hname
    rw [findHere?, Key.ofName_of_not_marked hname, h.distinct.mem_iff]
  constructor
  · exact h.plain_increase
  · intro x
    rw [h.mem_plain_map]
    constructor
    · intro hx
      have hname := h.unmarked _ hx
      exact ⟨hname, (hfind x.name x hname).mpr hx⟩
    · rintro ⟨hname, hx⟩
      exact (hfind x.name x hname).mp hx
  · intro name x hname hx
    exact h.plain_named ((hfind name x hname).mp hx)

theorem listing_tags (h : (a.bindings id).Tidy) : Listing (a.tags id) (a.findTagHere? id) := by
  have hfind : ∀ name x, a.findTagHere? id name = some x ↔ (.tag name, x) ∈ a.bindings id := by
    intro name x
    rw [findTagHere?, h.distinct.mem_iff]
  constructor
  · exact h.tags_increase
  · intro x
    rw [tags, h.mem_tags, hfind]
    constructor
    · intro hx
      exact ⟨h.unmarked _ hx, hx⟩
    · exact And.right
  · intro name x _ hx
    exact h.tag_named ((hfind name x).mp hx)

theorem dump_eq (h : (a.bindings id).Tidy) (s : Store) :
    a.dump id s =
      ((a.bindings id).plain.map (·.2)).map fun x => x.name ++ " [" ++ x.typeName s ++ "]" := by
  rw [dump, List.map_map]
  apply List.map_congr_left
  intro entry hentry
  rw [h.plain_key hentry, Key.text]
  rfl

def Tidy (a : Arena) : Prop := ∀ id, (a.bindings id).Tidy

theorem Tidy.setBindings (h : a.Tidy) {b : Bindings} (hb : b.Tidy) (id : ScopeId) :
    (a.setBindings id b).Tidy := by
  intro j
  rcases Nat.lt_or_ge id a.size with hid | hid
  · rw [bindings_setBindings hid]
    split
    · exact hb
    · exact h j
  · rw [setBindings_of_size_le hid]
    exact h j

end Arena

end MiniMl
