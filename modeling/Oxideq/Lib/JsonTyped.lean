import Oxideq.Lib.JsonRoundTrip
import Oxideq.Lib.SortedTree
import Oxideq.Lib.Table

/-!
# Typed values in JSON

How a record, an enumeration, an array, a bounded number or a map is read out of a JSON value. The
readers accept what a derived deserializer does: the fields of a record in any order, each of them
once, among members of other names, or as the elements of an array; a variant by its name alone or
as the only member of an object; in a map a later member replaces an earlier one of its key, and a
set forgets how often and in which order its elements were written.

`Reads f v a` says that a value has a text and that the reader `f` makes `a` of it. There is one
lemma for each shape of value, so a round trip for a type follows from those of its parts, and
`Reads.parse_print` carries it over to texts.
-/

namespace Json

variable {α β V : Type}

/-! ### Readers -/

/-- A natural number below `bound`. -/
def asNat (bound : ℕ) : Value → Option ℕ
  | .int i => if 0 ≤ i ∧ i < bound then some i.toNat else none
  | _ => none

def asUInt8 (v : Value) : Option UInt8 := (asNat (2 ^ 8) v).map UInt8.ofNat

def asUInt32 (v : Value) : Option UInt32 := (asNat (2 ^ 32) v).map UInt32.ofNat

def asUInt64 (v : Value) : Option UInt64 := (asNat (2 ^ 64) v).map UInt64.ofNat

def asBool : Value → Option Bool
  | .bool b => some b
  | _ => none

def asString : Value → Option String
  | .str s => some s
  | _ => none

/-- An array, each of its elements read by `f`. -/
def asArray (f : Value → Option α) : Value → Option (List α)
  | .arr xs => xs.mapM f
  | _ => none

/-- The value of the only member of that name. -/
def member (ms : List (String × Value)) (name : String) : Option Value :=
  match ms.filter (·.1 = name) with
  | [m] => some m.2
  | _ => none

/-- The fields of a record, in the order of their names. -/
def asFields (names : List String) : Value → Option (List Value)
  | .obj ms => names.mapM (member ms)
  | .arr xs => if xs.length = names.length then some xs else none
  | _ => none

/-- An `Option`: `null` is the absent value. -/
def asOption (f : Value → Option α) : Value → Option (Option α)
  | .null => some none
  | v => (f v).map some

/-- The value of the only member of that name, `null` where there is none. -/
def optMember (ms : List (String × Value)) (name : String) : Option Value :=
  match ms.filter (·.1 = name) with
  | [] => some .null
  | [m] => some m.2
  | _ => none

/-- The fields of a record, in the order of their names. Those marked are of an `Option` type, and
an object may leave them out. -/
def asOptFields (names : List (String × Bool)) : Value → Option (List Value)
  | .obj ms => names.mapM fun n => if n.2 then optMember ms n.1 else member ms n.1
  | .arr xs => if xs.length = names.length then some xs else none
  | _ => none

/-- A record of one field. -/
def asSingle (name : String) (f : Value → Option α) (v : Value) : Option α :=
  match asFields [name] v with
  | some [x] => f x
  | _ => none

/-- A record of two fields. -/
def asPair (name : String) (f : Value → Option α) (name' : String) (g : Value → Option β)
    (v : Value) : Option (α × β) :=
  match asFields [name, name'] v with
  | some [x, y] => (f x).bind fun a => (g y).map fun b => (a, b)
  | _ => none

/-- An externally tagged enumeration: the name of a variant, and its content where it has one. -/
def asVariant : Value → Option (String × Option Value)
  | .str tag => some (tag, none)
  | .obj [(tag, v)] => some (tag, some v)
  | _ => none

/-- A set of elements that are ordered by `key`, as the list of them in this order. -/
def asSet (f : Value → Option α) (key : α → ℕ) (v : Value) : Option (List α) :=
  (asArray f v).map (SortedTree.sortBy key)

/-- A number that is the key of a member: the decimal text of it, as JSON has it. -/
def keyNat (s : String) : Option ℕ :=
  if toString (Nat.ofDigitChars 10 s.toList 0) = s then some (Nat.ofDigitChars 10 s.toList 0)
  else none

/-- A member whose key is a number below `bound`. -/
def asNumberEntry (bound : ℕ) (f : Value → Option V) (m : String × Value) : Option (ℕ × V) :=
  (keyNat m.1).bind fun k => (f m.2).bind fun v => if k < bound then some (k, v) else none

/-- A map keyed by numbers, as the list of its entries by increasing key. -/
def asNumberMap (bound : ℕ) (f : Value → Option V) : Value → Option (List (ℕ × V))
  | .obj ms => (ms.mapM (asNumberEntry bound f)).map (SortedTree.sortBy Prod.fst)
  | _ => none

/-- A map keyed by strings, each of its values read by `f`. -/
def asMap (f : Value → Option V) : Value → Option (Finmap fun _ : String => V)
  | .obj ms => ms.foldlM (fun t m => (f m.2).map (t.insert m.1)) ∅
  | _ => none

/-- The members of an object for the entries of a map, in the order of the given keys. -/
def members (keys : List String) (g : V → Value) (t : Finmap fun _ : String => V) :
    List (String × Value) :=
  keys.filterMap fun k => (t.lookup k).map fun v => (k, g v)

/-! ### Reading -/

/-- The value has a text, and the reader makes `a` of it. -/
structure Reads (f : Value → Option α) (v : Value) (a : α) : Prop where
  noFloat : noFloat v = true
  eq_some : f v = some a

/-- **Texts.** What a reader makes of a value it makes of its text. -/
theorem Reads.parse_print {f : Value → Option α} {v : Value} {a : α} (h : Reads f v a) :
    (parse (print v)).bind f = some a := by
  rw [Json.parse_print h.noFloat, Option.bind_some, h.eq_some]

theorem reads_string (s : String) : Reads asString (.str s) s := ⟨rfl, rfl⟩

theorem asNat_natCast {bound n : ℕ} (h : n < bound) : asNat bound (.int n) = some n := by
  rw [asNat, if_pos ⟨Int.natCast_nonneg n, by exact_mod_cast h⟩, Int.toNat_natCast]

theorem reads_uint8 (b : UInt8) : Reads asUInt8 (.int b.toNat) b := by
  refine ⟨rfl, ?_⟩
  rw [asUInt8, asNat_natCast b.toNat_lt, Option.map_some, UInt8.ofNat_toNat]

theorem reads_uint32 (n : UInt32) : Reads asUInt32 (.int n.toNat) n := by
  refine ⟨rfl, ?_⟩
  rw [asUInt32, asNat_natCast n.toNat_lt, Option.map_some, UInt32.ofNat_toNat]

theorem reads_uint64 (n : UInt64) : Reads asUInt64 (.int n.toNat) n := by
  refine ⟨rfl, ?_⟩
  rw [asUInt64, asNat_natCast n.toNat_lt, Option.map_some, UInt64.ofNat_toNat]

theorem reads_bool (b : Bool) : Reads asBool (.bool b) b := ⟨rfl, rfl⟩

theorem reads_none (f : Value → Option α) : Reads (asOption f) .null none := ⟨rfl, rfl⟩

/-- A present value is not written as `null`. -/
theorem Reads.some {f : Value → Option α} {v : Value} {a : α} (h : Reads f v a)
    (hnull : v ≠ .null) : Reads (asOption f) v (some a) := by
  refine ⟨h.noFloat, ?_⟩
  cases v with
  | null => exact absurd rfl hnull
  | _ => exact congrArg (Option.map Option.some) h.eq_some

/-- A reader that converts what it has read. -/
theorem Reads.map {f : Value → Option α} {v : Value} {a : α} (h : Reads f v a) (c : α → β) :
    Reads (fun v => (f v).map c) v (c a) :=
  ⟨h.noFloat, congrArg (Option.map c) h.eq_some⟩

/-! ### Records and variants -/

theorem member_cons_self (name : String) (v : Value) {ms : List (String × Value)}
    (h : ∀ m ∈ ms, m.1 ≠ name) : member ((name, v) :: ms) name = some v := by
  have hrest : ms.filter (fun m => decide (m.1 = name)) = [] :=
    List.filter_eq_nil_iff.mpr fun m hm => by simpa using h m hm
  rw [member, List.filter_cons_of_pos (by simp), hrest]

theorem member_cons_of_ne {name name' : String} (h : name' ≠ name) (v : Value)
    (ms : List (String × Value)) : member ((name', v) :: ms) name = member ms name := by
  rw [member, List.filter_cons_of_neg (by simpa using h), member]

theorem reads_single {f : Value → Option α} {v : Value} {a : α} (name : String)
    (h : Reads f v a) : Reads (asSingle name f) (.obj [(name, v)]) a := by
  refine ⟨by rw [Json.noFloat, noFloatMembers, h.noFloat]; rfl, ?_⟩
  have hfields : asFields [name] (.obj [(name, v)]) = some [v] := by
    rw [asFields, List.mapM_cons, member_cons_self name v fun m hm => absurd hm List.not_mem_nil]
    rfl
  rw [asSingle, hfields]
  exact h.eq_some

theorem reads_pair {f : Value → Option α} {g : Value → Option β} {v w : Value} {a : α} {b : β}
    (name name' : String) (hne : name ≠ name') (hv : Reads f v a) (hw : Reads g w b) :
    Reads (asPair name f name' g) (.obj [(name, v), (name', w)]) (a, b) := by
  refine ⟨?_, ?_⟩
  · rw [Json.noFloat, noFloatMembers, noFloatMembers, hv.noFloat, hw.noFloat]
    rfl
  · have hfields : asFields [name, name'] (.obj [(name, v), (name', w)]) = some [v, w] := by
      rw [asFields, List.mapM_cons, List.mapM_cons, member_cons_of_ne hne,
        member_cons_self name v fun m hm => ?_,
        member_cons_self name' w fun m hm => absurd hm List.not_mem_nil]
      · rfl
      · rw [List.mem_singleton] at hm
        rw [hm]
        exact hne.symm
    rw [asPair, hfields]
    simp only [hv.eq_some, hw.eq_some, Option.bind_some, Option.map_some]

/-- A variant whose content is read by `g`. -/
theorem reads_variant {f : Value → Option α} {g : Value → Option β} {v : Value} {b : β}
    {c : β → α} (tag : String) (hf : f (.obj [(tag, v)]) = (g v).map c) (h : Reads g v b) :
    Reads f (.obj [(tag, v)]) (c b) := by
  refine ⟨by rw [Json.noFloat, noFloatMembers, h.noFloat]; rfl, ?_⟩
  rw [hf, h.eq_some, Option.map_some]

/-! ### Arrays and sets -/

theorem noFloats_map {g : α → Value} {xs : List α} (h : ∀ x ∈ xs, noFloat (g x) = true) :
    noFloats (xs.map g) = true := by
  induction xs with
  | nil => rfl
  | cons x xs ih =>
    rw [List.forall_mem_cons] at h
    rw [List.map_cons, noFloats, h.1, ih h.2]
    rfl

theorem reads_array {f : Value → Option α} {g : α → Value} {xs : List α}
    (h : ∀ x ∈ xs, Reads f (g x) x) : Reads (asArray f) (.arr (xs.map g)) xs := by
  refine ⟨noFloats_map fun x hx => (h x hx).noFloat, ?_⟩
  change (xs.map g).mapM f = some xs
  induction xs with
  | nil => rfl
  | cons x xs ih =>
    rw [List.forall_mem_cons] at h
    rw [List.map_cons, List.mapM_cons, h.1.eq_some, ih h.2]
    rfl

/-- A set that is written in its order is read as it is. -/
theorem reads_set {f : Value → Option α} {g : α → Value} {key : α → ℕ} {xs : List α}
    (h : ∀ x ∈ xs, Reads f (g x) x) (hsorted : xs.Pairwise fun a b => key a < key b) :
    Reads (asSet f key) (.arr (xs.map g)) xs := by
  refine ⟨(reads_array h).noFloat, ?_⟩
  rw [asSet, (reads_array h).eq_some, Option.map_some, SortedTree.sortBy_eq hsorted]

/-! ### Maps keyed by numbers -/

theorem keyNat_toString (n : ℕ) : keyNat (toString n) = some n := by
  have hdigits : Nat.ofDigitChars 10 (toString n).toList 0 = n := by
    rw [Nat.toString_eq_ofList_toDigits, String.toList_ofList, Nat.ofDigitChars_ten_toDigits]
  rw [keyNat, hdigits, if_pos rfl]

theorem reads_numberMap {bound : ℕ} {f : Value → Option V} {g : V → Value} {t : List (ℕ × V)}
    (h : ∀ e ∈ t, e.1 < bound ∧ Reads f (g e.2) e.2)
    (hsorted : t.Pairwise fun a b => a.1 < b.1) :
    Reads (asNumberMap bound f) (.obj (t.map fun e => (toString e.1, g e.2))) t := by
  constructor
  · clear hsorted
    change noFloatMembers (t.map fun e => (toString e.1, g e.2)) = true
    induction t with
    | nil => rfl
    | cons e t ih =>
      rw [List.forall_mem_cons] at h
      rw [List.map_cons, noFloatMembers, h.1.2.noFloat, ih h.2]
      rfl
  · have hmapM : (t.map fun e => (toString e.1, g e.2)).mapM (asNumberEntry bound f)
        = some t := by
      clear hsorted
      induction t with
      | nil => rfl
      | cons e t ih =>
        rw [List.forall_mem_cons] at h
        have hentry : asNumberEntry bound f (toString e.1, g e.2) = some e := by
          rw [asNumberEntry, keyNat_toString, Option.bind_some, h.1.2.eq_some, Option.bind_some,
            if_pos h.1.1]
        rw [List.map_cons, List.mapM_cons, hentry, ih h.2]
        rfl
    rw [asNumberMap, hmapM, Option.map_some, SortedTree.sortBy_eq hsorted]

/-! ### Maps keyed by strings -/

section Maps

variable {f : Value → Option V} {g : V → Value} {t : Finmap fun _ : String => V}

theorem noFloatMembers_members (h : ∀ k v, t.lookup k = some v → noFloat (g v) = true)
    (keys : List String) : noFloatMembers (members keys g t) = true := by
  induction keys with
  | nil => rfl
  | cons k keys ih =>
    rw [members, List.filterMap_cons]
    cases hl : t.lookup k with
    | none => exact ih
    | some v =>
      change (noFloat (g v) && noFloatMembers (members keys g t)) = true
      rw [h k v hl, ih]
      rfl

/-- The members are inserted one after the other. -/
theorem foldlM_members (h : ∀ k v, t.lookup k = some v → f (g v) = some v) (keys : List String)
    (acc : Finmap fun _ : String => V) :
    (members keys g t).foldlM (fun t m => (f m.2).map (t.insert m.1)) acc
      = some (Table.refill t keys acc) := by
  induction keys generalizing acc with
  | nil => rfl
  | cons k keys ih =>
    rw [members, List.filterMap_cons, Table.refill, List.foldl_cons]
    cases hl : t.lookup k with
    | none => exact ih acc
    | some v =>
      change List.foldlM _ acc ((k, g v) :: members keys g t) = _
      rw [List.foldlM_cons, h k v hl]
      exact ih (acc.insert k v)

theorem reads_map (h : ∀ k v, t.lookup k = some v → Reads f (g v) v) {keys : List String}
    (hkeys : (keys : Multiset String) = t.keys.val) :
    Reads (asMap f) (.obj (members keys g t)) t := by
  refine ⟨noFloatMembers_members (fun k v hl => (h k v hl).noFloat) keys, ?_⟩
  change (members keys g t).foldlM (fun t m => (f m.2).map (t.insert m.1)) ∅ = some t
  rw [foldlM_members (fun k v hl => (h k v hl).eq_some), Table.refill_eq hkeys]

end Maps

end Json
