import Mathlib.Data.List.Sort
import CampaignRules.Json.Basic

/-! # Objects as maps

The members of a canonical object are determined by what its keys hold. So two ways to come by an
object are compared key by key, without regard to the order in which members were set and erased.
Putting members in order adds none, and it changes nothing where they are in order already. -/

namespace CampaignRules.Json.Members

variable {key : Bytes} {value : Json} {members other : Members}

theorem get?_erase (key found : Bytes) (members : Members) :
    get? found (erase key members) = if found = key then none else get? found members := by
  by_cases hfound : found = key
  · subst hfound
    rw [if_pos rfl]
    induction members with
    | nil => rfl
    | cons member rest ih =>
        by_cases hkey : member.1 = found
        · have hdrop : erase found (member :: rest) = erase found rest := by simp [erase, hkey]
          rw [hdrop, ih]
        · have hkeep : erase found (member :: rest) = member :: erase found rest := by
            simp [erase, hkey]
          rw [hkeep, get?, if_neg hkey, ih]
  · rw [if_neg hfound, get?_erase_ne hfound]

theorem mem_of_get? (hget : get? key members = some value) : (key, value) ∈ members := by
  induction members with
  | nil => cases hget
  | cons member rest ih =>
      rw [get?] at hget
      split at hget
      · rename_i hkey
        cases hget
        exact hkey ▸ List.mem_cons_self
      · exact List.mem_cons_of_mem _ (ih hget)

theorem contains_of_mem (hmem : key ∈ keys members) : contains key members := by
  induction members with
  | nil => cases hmem
  | cons member rest ih =>
      rw [contains, get?]
      split
      · rfl
      · rename_i hkey
        rcases List.mem_cons.1 hmem with heq | hrest
        · exact absurd heq.symm hkey
        · exact ih hrest

theorem contains_eq_false_iff : contains key members = false ↔ get? key members = none := by
  rw [contains, Option.isSome_eq_false_iff, Option.isNone_iff_eq_none]

theorem mem_keys_iff : key ∈ keys members ↔ get? key members ≠ none := by
  constructor
  · intro hmem hget
    have hcontains := contains_of_mem hmem
    rw [contains, hget] at hcontains
    cases hcontains
  · intro hget
    obtain ⟨value, hvalue⟩ := Option.ne_none_iff_exists'.1 hget
    exact List.mem_map_of_mem (mem_of_get? hvalue)

/-- The last value set for a key is the one that counts. -/
theorem set_set (key : Bytes) (first last : Json) (members : Members) :
    set key last (set key first members) = set key last members := by
  have hirrefl : ¬key < key := List.lt_irrefl key
  induction members with
  | nil => simp [set, hirrefl]
  | cons member rest ih =>
      obtain ⟨k, v⟩ := member
      by_cases hlt : key < k
      · simp [set, hlt, hirrefl]
      · by_cases heq : key = k
        · subst heq
          simp [set, hirrefl]
        · simp [set, hlt, heq, ih]

/-- One member comes before another by their keys. -/
def Before (a b : Bytes × Json) : Prop :=
  a.1 < b.1

instance : Std.Irrefl Before :=
  ⟨fun a => List.lt_irrefl a.1⟩

instance : Std.Antisymm Before :=
  ⟨fun _ _ hlt hgt => absurd hgt (List.lt_asymm hlt)⟩

theorem sorted_iff : Sorted members ↔ members.Pairwise Before :=
  List.pairwise_map

theorem sorted_cons_iff {member : Bytes × Json} :
    Sorted (member :: members) ↔ (∀ later ∈ members, Before member later) ∧ Sorted members := by
  rw [sorted_iff, sorted_iff, List.pairwise_cons]

/-- A key before all others is not there. -/
theorem get?_eq_none_of_lt (hbefore : ∀ member ∈ members, key < member.1) : get? key members = none := by
  cases hget : get? key members with
  | none => rfl
  | some value => exact absurd (hbefore _ (mem_of_get? hget)) (List.lt_irrefl key)

theorem get?_eq_none_of_lt_first {first : Bytes × Json} (hsorted : Sorted (first :: members))
    (hlt : key < first.1) : get? key (first :: members) = none := by
  refine get?_eq_none_of_lt (List.forall_mem_cons.2 ⟨hlt, fun member hmem => ?_⟩)
  exact List.lt_trans hlt ((sorted_cons_iff.1 hsorted).1 member hmem)

theorem get?_of_mem (hsorted : Sorted members) (hmem : (key, value) ∈ members) :
    get? key members = some value := by
  induction members with
  | nil => cases hmem
  | cons member rest ih =>
      obtain ⟨hfirst, hrest⟩ := sorted_cons_iff.1 hsorted
      rcases List.mem_cons.1 hmem with rfl | hlater
      · exact if_pos rfl
      · rw [get?, if_neg, ih hrest hlater]
        rintro rfl
        have hlt : Before member (member.1, value) := hfirst _ hlater
        exact List.lt_irrefl member.1 hlt

theorem get?_eq_some_iff (hsorted : Sorted members) :
    get? key members = some value ↔ (key, value) ∈ members :=
  ⟨mem_of_get?, get?_of_mem hsorted⟩

/-- Objects that hold the same at every key are the same. -/
theorem eq_of_get?_eq (hsorted : Sorted members) (hother : Sorted other)
    (hget : ∀ key, get? key members = get? key other) : members = other := by
  refine (sorted_iff.1 hsorted).eq_of_mem_iff (sorted_iff.1 hother) fun ⟨key, value⟩ => ?_
  rw [← get?_eq_some_iff hsorted, ← get?_eq_some_iff hother, hget]

theorem mem_set {member : Bytes × Json} (hmem : member ∈ set key value members) :
    member = (key, value) ∨ member ∈ members := by
  induction members with
  | nil => exact .inl (List.mem_singleton.1 hmem)
  | cons first rest ih =>
      rw [set] at hmem
      split at hmem
      · exact List.mem_cons.1 hmem
      · split at hmem
        · rename_i heq
          rcases List.mem_cons.1 hmem with rfl | hrest
          · exact .inl (by rw [heq])
          · exact .inr (List.mem_cons_of_mem _ hrest)
        · rcases List.mem_cons.1 hmem with rfl | hrest
          · exact .inr List.mem_cons_self
          · exact (ih hrest).imp_right (List.mem_cons_of_mem _)

theorem sorted_set (key : Bytes) (value : Json) (hsorted : Sorted members) :
    Sorted (set key value members) := by
  induction members with
  | nil => exact sorted_cons_iff.2 ⟨fun _ h => absurd h List.not_mem_nil, hsorted⟩
  | cons first rest ih =>
      obtain ⟨hfirst, hrest⟩ := sorted_cons_iff.1 hsorted
      rw [set]
      split
      · rename_i hlt
        refine sorted_cons_iff.2 ⟨fun later hlater => ?_, hsorted⟩
        rcases List.mem_cons.1 hlater with rfl | hlater
        · exact hlt
        · exact List.lt_trans hlt (hfirst later hlater)
      · split
        · exact sorted_cons_iff.2 ⟨hfirst, hrest⟩
        · rename_i hnlt hne
          refine sorted_cons_iff.2 ⟨fun later hlater => ?_, ih hrest⟩
          rcases mem_set hlater with rfl | hlater
          · show first.1 < key
            grind
          · exact hfirst later hlater

theorem sorted_erase (key : Bytes) (hsorted : Sorted members) : Sorted (erase key members) :=
  sorted_iff.2 ((sorted_iff.1 hsorted).filter _)

/-- Setting what a key holds already changes nothing. -/
theorem set_self (hsorted : Sorted members) (hget : get? key members = some value) :
    set key value members = members := by
  refine eq_of_get?_eq (sorted_set key value hsorted) hsorted fun found => ?_
  rw [get?_set]
  split
  · rename_i hfound
    rw [hfound, hget]
  · rfl

/-- A member that was not there is gone once it is erased. -/
theorem erase_set (hsorted : Sorted members) (hget : get? key members = none) (value : Json) :
    erase key (set key value members) = members := by
  refine eq_of_get?_eq (sorted_erase key (sorted_set key value hsorted)) hsorted fun found => ?_
  rw [get?_erase]
  split
  · rename_i hfound
    rw [hfound, hget]
  · rename_i hfound
    exact get?_set_ne hfound value members

/-- A member that was erased is there again once it is set. -/
theorem set_erase (hsorted : Sorted members) (hget : get? key members = some value) :
    set key value (erase key members) = members := by
  refine eq_of_get?_eq (sorted_set key value (sorted_erase key hsorted)) hsorted fun found => ?_
  rw [get?_set]
  split
  · rename_i hfound
    rw [hfound, hget]
  · rename_i hfound
    exact get?_erase_ne hfound members

/-- Gives a key the value in a slot, or takes the key away if the slot is empty. -/
def put (key : Bytes) : Option Json → Members → Members
  | some value => set key value
  | none => erase key

theorem get?_put (key found : Bytes) (slot : Option Json) (members : Members) :
    get? found (put key slot members) = if found = key then slot else get? found members := by
  cases slot with
  | some value => exact get?_set key found value members
  | none => exact get?_erase key found members

theorem sorted_put (key : Bytes) (slot : Option Json) (hsorted : Sorted members) :
    Sorted (put key slot members) := by
  cases slot with
  | some value => exact sorted_set key value hsorted
  | none => exact sorted_erase key hsorted

/-- Setting members one after the other comes up with no others. -/
theorem mem_ofList {member : Bytes × Json} (hmem : member ∈ ofList members) : member ∈ members := by
  suffices h : ∀ done : Members,
      member ∈ members.foldl (fun set m => Members.set m.1 m.2 set) done →
      member ∈ done ∨ member ∈ members by simpa using h [] hmem
  clear hmem
  induction members with
  | nil => exact fun _ => .inl
  | cons first rest ih =>
      intro done hmem
      rcases ih _ hmem with hset | hrest
      · rcases mem_set hset with rfl | hdone
        · exact .inr List.mem_cons_self
        · exact .inl hdone
      · exact .inr (List.mem_cons_of_mem _ hrest)

theorem sorted_ofList (members : Members) : Sorted (ofList members) := by
  suffices h : ∀ done : Members, Sorted done →
      Sorted (members.foldl (fun set m => Members.set m.1 m.2 set) done) from h [] .nil
  induction members with
  | nil => exact fun _ => id
  | cons first rest ih => exact fun done hdone => ih _ (sorted_set first.1 first.2 hdone)

/-- A key after all others comes last. -/
theorem set_of_before {member : Bytes × Json} (hbefore : ∀ earlier ∈ members, Before earlier member) :
    set member.1 member.2 members = members ++ [member] := by
  induction members with
  | nil => rfl
  | cons first rest ih =>
      obtain ⟨hfirst, hrest⟩ := List.forall_mem_cons.1 hbefore
      have hlt : first.1 < member.1 := hfirst
      rw [set, if_neg (List.lt_asymm hlt), if_neg, ih hrest, List.cons_append]
      rintro heq
      rw [heq] at hlt
      exact List.lt_irrefl _ hlt

theorem ofList_of_sorted (hsorted : Sorted members) : ofList members = members := by
  suffices h : ∀ done : Members, (∀ earlier ∈ done, ∀ later ∈ members, Before earlier later) →
      members.foldl (fun set m => Members.set m.1 m.2 set) done = done ++ members from
    h [] (List.forall_mem_nil _)
  induction members with
  | nil => exact fun done _ => (List.append_nil done).symm
  | cons first rest ih =>
      obtain ⟨hfirst, hrest⟩ := sorted_cons_iff.1 hsorted
      intro done hdone
      have hlast : ∀ earlier ∈ done, Before earlier first := fun earlier hearlier =>
        hdone earlier hearlier first List.mem_cons_self
      rw [List.foldl_cons, set_of_before hlast, ih hrest, List.append_assoc, List.singleton_append]
      intro earlier hearlier later hlater
      rcases List.mem_append.1 hearlier with hearlier | hearlier
      · exact hdone earlier hearlier later (List.mem_cons_of_mem _ hlater)
      · exact List.mem_singleton.1 hearlier ▸ hfirst later hlater

end CampaignRules.Json.Members

namespace CampaignRules.Json

theorem set_set (v : Json) (key : Bytes) (first last : Json) :
    (v.set key first).set key last = v.set key last := by
  cases v with
  | object members => exact congrArg Json.object (Members.set_set key first last members)
  | _ => rfl

theorem itemsCanonical_iff {items : List Json} :
    ItemsCanonical items ↔ ∀ v ∈ items, v.IsCanonical := by
  induction items with
  | nil => simp [ItemsCanonical]
  | cons v rest ih => rw [ItemsCanonical, ih, List.forall_mem_cons]

theorem membersCanonical_iff {members : Members} :
    MembersCanonical members ↔ ∀ member ∈ members, member.2.IsCanonical := by
  induction members with
  | nil => simp [MembersCanonical]
  | cons member rest ih => rw [MembersCanonical, ih, List.forall_mem_cons]

theorem isCanonical_of_get? {key : Bytes} {document value : Json} (hcanonical : document.IsCanonical)
    (hget : document.get? key = some value) : value.IsCanonical := by
  cases document with
  | object members =>
      exact membersCanonical_iff.1 hcanonical.2 (key, value) (Members.mem_of_get? hget)
  | _ => cases hget

mutual

theorem canonical_of_isCanonical : ∀ {v : Json}, v.IsCanonical → v.canonical = v
  | .null, _ | .bool _, _ | .unsigned _, _ | .signed _, _ | .float _, _ | .string _, _ => rfl
  | .array _, h => congrArg Json.array (canonicalItems_of_itemsCanonical h)
  | .object _, h => by
      rw [canonical, canonicalMembers_of_membersCanonical h.2, Members.ofList_of_sorted h.1]

theorem canonicalItems_of_itemsCanonical :
    ∀ {items : List Json}, ItemsCanonical items → canonicalItems items = items
  | [], _ => rfl
  | _ :: _, h => by
      rw [canonicalItems, canonical_of_isCanonical h.1, canonicalItems_of_itemsCanonical h.2]

theorem canonicalMembers_of_membersCanonical :
    ∀ {members : Members}, MembersCanonical members → canonicalMembers members = members
  | [], _ => rfl
  | (_, _) :: _, h => by
      rw [canonicalMembers, canonical_of_isCanonical h.1, canonicalMembers_of_membersCanonical h.2]

end

/-! ### Properties of all that is in a value -/

/-- A property that a container has if and only if all that it holds has it. -/
structure Hereditary (value : Json → Prop) (key : Bytes → Prop) : Prop where
  array {items : List Json} : value (.array items) ↔ ∀ v ∈ items, value v
  object {members : Members} :
    value (.object members) ↔ ∀ member ∈ members, key member.1 ∧ value member.2

namespace Hereditary

variable {value : Json → Prop} {key : Bytes → Prop}

mutual

theorem canonical (h : Hereditary value key) : ∀ {v : Json}, value v → value v.canonical
  | .null, hv | .bool _, hv | .unsigned _, hv | .signed _, hv | .float _, hv | .string _, hv => hv
  | .array _, hv => h.array.2 (h.canonicalItems (h.array.1 hv))
  | .object _, hv => h.object.2 fun member hmem =>
      h.canonicalMembers (h.object.1 hv) member (Members.mem_ofList hmem)

theorem canonicalItems (h : Hereditary value key) :
    ∀ {items : List Json}, (∀ v ∈ items, value v) → ∀ v ∈ Json.canonicalItems items, value v
  | [], _ => List.forall_mem_nil _
  | _ :: _, hitems => by
      rw [List.forall_mem_cons] at hitems
      exact List.forall_mem_cons.2 ⟨h.canonical hitems.1, h.canonicalItems hitems.2⟩

theorem canonicalMembers (h : Hereditary value key) :
    ∀ {members : Members}, (∀ member ∈ members, key member.1 ∧ value member.2) →
      ∀ member ∈ Json.canonicalMembers members, key member.1 ∧ value member.2
  | [], _ => List.forall_mem_nil _
  | (_, _) :: _, hmembers => by
      rw [List.forall_mem_cons] at hmembers
      exact List.forall_mem_cons.2
        ⟨⟨hmembers.1.1, h.canonical hmembers.1.2⟩, h.canonicalMembers hmembers.2⟩

end

theorem of_get? (h : Hereditary value key) {document found : Json} {name : Bytes}
    (hdocument : value document) (hget : document.get? name = some found) : value found := by
  cases document with
  | object members => exact (h.object.1 hdocument (name, found) (Members.mem_of_get? hget)).2
  | _ => cases hget

end Hereditary

end CampaignRules.Json
