/-
Finite maps that are kept in the order of their keys.

A map is the list of its entries with every key strictly below the ones after it.
The order is part of the type, so a map has one representation only: two maps with
the same entries are equal, and whatever walks through a map meets its keys in
ascending order.  `get?` is the view through which the operations are understood;
`get?_insert` and `ext_get?` are what the rest of the library uses.

Keys are compared with `<`, which for texts is the order by code point.  That is also
the order of their UTF-8 bytes.
-/

namespace BuildConfig

/-- The order of a key type is strict and total. -/
class KeyOrder (κ : Type) [LT κ] : Prop where
  irrefl : ∀ a : κ, ¬ a < a
  trans : ∀ {a b c : κ}, a < b → b < c → a < c
  total : ∀ a b : κ, a < b ∨ a = b ∨ b < a

instance : KeyOrder String where
  irrefl := String.lt_irrefl
  trans := String.lt_trans
  total a b := by
    by_cases hab : a < b
    · exact .inl hab
    · by_cases hba : b < a
      · exact .inr (.inr hba)
      · exact .inr (.inl (String.le_antisymm (String.not_lt.1 hba) (String.not_lt.1 hab)))

/-- A list of entries in strictly ascending order of their keys. -/
structure SortedMap (κ α : Type) [LT κ] where
  entries : List (κ × α)
  /-- Every key is below the ones after it. -/
  ascending : (entries.map (·.1)).Pairwise (· < ·)
  deriving DecidableEq

namespace SortedMap

/-! ### Lists of entries

The operations work on the entries, and each comes with the fact that it keeps them
in order.
-/

section Entries

variable {κ α : Type} [LT κ] [DecidableLT κ] [DecidableEq κ]

/-- The value at a key. -/
def find? (key : κ) : List (κ × α) → Option α
  | [] => none
  | (k, a) :: rest => if key = k then some a else find? key rest

/-- The entries with the value put at the key, in place of the one that was there. -/
def put (key : κ) (value : α) : List (κ × α) → List (κ × α)
  | [] => [(key, value)]
  | (k, a) :: rest =>
    if key < k then (key, value) :: (k, a) :: rest
    else if key = k then (key, value) :: rest
    else (k, a) :: put key value rest

theorem mem_keys_put {key k : κ} {value : α} {es : List (κ × α)}
    (h : k ∈ (put key value es).map (·.1)) : k = key ∨ k ∈ es.map (·.1) := by
  induction es with
  | nil => simpa [put] using h
  | cons e rest ih =>
    obtain ⟨k', a⟩ := e
    unfold put at h
    split at h
    · simpa using h
    · split at h
      · rename_i heq
        simp only [List.map_cons, List.mem_cons] at h ⊢
        rcases h with rfl | h
        · exact .inl rfl
        · exact .inr (.inr h)
      · simp only [List.map_cons, List.mem_cons] at h ⊢
        rcases h with rfl | h
        · exact .inr (.inl rfl)
        · exact (ih h).imp_right .inr

private theorem ascending_put [KeyOrder κ] (key : κ) (value : α) {es : List (κ × α)}
    (h : (es.map (·.1)).Pairwise (· < ·)) : ((put key value es).map (·.1)).Pairwise (· < ·) := by
  induction es with
  | nil => simp [put]
  | cons e rest ih =>
    obtain ⟨k, a⟩ := e
    rw [List.map_cons, List.pairwise_cons] at h
    unfold put
    split
    · rename_i hlt
      refine List.pairwise_cons.2 ⟨fun k' hk' => ?_, List.pairwise_cons.2 h⟩
      rcases List.mem_cons.1 hk' with rfl | hk'
      · exact hlt
      · exact KeyOrder.trans hlt (h.1 k' hk')
    · rename_i hlt
      split
      · rename_i heq
        subst heq
        exact List.pairwise_cons.2 h
      · rename_i hne
        refine List.pairwise_cons.2 ⟨fun k' hk' => ?_, ih h.2⟩
        rcases mem_keys_put hk' with rfl | hk'
        · rcases KeyOrder.total k k' with hlt' | heq | hgt
          · exact hlt'
          · exact absurd heq.symm hne
          · exact absurd hgt hlt
        · exact h.1 k' hk'

end Entries

/-! ### Operations -/

section Operations

variable {κ α : Type} [LT κ]

/-- The map without entries. -/
def empty : SortedMap κ α :=
  ⟨[], .nil⟩

/-- The keys in ascending order. -/
def keys (m : SortedMap κ α) : List κ :=
  m.entries.map (·.1)

/-- Whether there is no entry. -/
def isEmpty (m : SortedMap κ α) : Bool :=
  m.entries.isEmpty

/-- The number of entries. -/
def size (m : SortedMap κ α) : Nat :=
  m.entries.length

private theorem ascending_filter (keep : κ × α → Bool) {es : List (κ × α)}
    (h : (es.map (·.1)).Pairwise (· < ·)) : ((es.filter keep).map (·.1)).Pairwise (· < ·) :=
  h.sublist (List.Sublist.map _ List.filter_sublist)

/-- The entries whose key passes the test. -/
def filterKeys (keep : κ → Bool) (m : SortedMap κ α) : SortedMap κ α :=
  ⟨m.entries.filter fun e => keep e.1, ascending_filter _ m.ascending⟩

variable [DecidableEq κ]

/-- The value at a key. -/
def get? (m : SortedMap κ α) (key : κ) : Option α :=
  find? key m.entries

/-- Whether there is a value at a key. -/
def contains (m : SortedMap κ α) (key : κ) : Bool :=
  (m.get? key).isSome

variable [DecidableLT κ] [KeyOrder κ]

/-- The map with the value at the key, in place of the one that was there. -/
def insert (m : SortedMap κ α) (key : κ) (value : α) : SortedMap κ α :=
  ⟨put key value m.entries, ascending_put key value m.ascending⟩

/-- The map with all entries of another; where both have a value the other's is taken. -/
def union (m other : SortedMap κ α) : SortedMap κ α :=
  other.entries.foldl (fun acc (key, value) => acc.insert key value) m

/-- The map of a list of entries; of two values for one key the later is taken. -/
def ofList (es : List (κ × α)) : SortedMap κ α :=
  es.foldl (fun acc (key, value) => acc.insert key value) empty

end Operations

/-! ### Changing every value

A function that may fail is applied to the values in the order of their keys.  The
first failure is the answer; otherwise the keys are what they were.
-/

section Traverse

variable {κ α β ε : Type}

/-- The entries with every value changed, or the first failure. -/
def changeEach (f : α → Except ε β) : List (κ × α) → Except ε (List (κ × β))
  | [] => .ok []
  | (key, a) :: rest =>
    match f a with
    | .error e => .error e
    | .ok b =>
      match changeEach f rest with
      | .error e => .error e
      | .ok bs => .ok ((key, b) :: bs)

theorem keys_changeEach {f : α → Except ε β} {es : List (κ × α)} {bs : List (κ × β)}
    (h : changeEach f es = .ok bs) : bs.map (·.1) = es.map (·.1) := by
  induction es generalizing bs with
  | nil => cases h; rfl
  | cons e rest ih =>
    obtain ⟨key, a⟩ := e
    unfold changeEach at h
    split at h
    · cases h
    · split at h
      · cases h
      · rename_i bs' hbs
        cases h
        simp [ih hbs]

/-- The map with every value changed, or the first failure in the order of the keys. -/
def mapValues [LT κ] (f : α → Except ε β) (m : SortedMap κ α) : Except ε (SortedMap κ β) :=
  match h : changeEach f m.entries with
  | .error e => .error e
  | .ok bs => .ok ⟨bs, keys_changeEach h ▸ m.ascending⟩

end Traverse

/-! ### Laws of the view -/

section Laws

variable {κ α : Type} [LT κ] [DecidableEq κ]

private theorem find?_put [DecidableLT κ] (key k : κ) (value : α) (es : List (κ × α)) :
    find? k (put key value es) = if k = key then some value else find? k es := by
  induction es with
  | nil => simp [put, find?]
  | cons e rest ih =>
    obtain ⟨k', a⟩ := e
    unfold put
    split
    · rw [find?]
    · split
      · rename_i heq
        subst heq
        rw [find?, find?]
        split <;> rfl
      · rename_i hne
        rw [find?, find?, ih]
        by_cases h : k = k'
        · subst h
          simp [Ne.symm hne]
        · simp [h]

/-- A map has at a key what was put there, and elsewhere what it had. -/
theorem get?_insert [DecidableLT κ] [KeyOrder κ] (m : SortedMap κ α) (key k : κ) (value : α) :
    (m.insert key value).get? k = if k = key then some value else m.get? k :=
  find?_put key k value m.entries

@[simp] theorem get?_empty (k : κ) : (empty : SortedMap κ α).get? k = none := rfl

theorem find?_eq_none_of_forall_lt [KeyOrder κ] {k : κ} {es : List (κ × α)}
    (h : ∀ k' ∈ es.map (·.1), k < k') : find? k es = none := by
  induction es with
  | nil => rfl
  | cons e rest ih =>
    obtain ⟨k', a⟩ := e
    have hne : k ≠ k' := fun heq => KeyOrder.irrefl k (heq ▸ h k' (by simp) : k < k)
    rw [find?, if_neg hne]
    exact ih fun k'' hk => h k'' (by simp [hk])

/-- Entries in ascending order are determined by what is found in them. -/
theorem entries_ext [KeyOrder κ] {xs ys : List (κ × α)}
    (hx : (xs.map (·.1)).Pairwise (· < ·)) (hy : (ys.map (·.1)).Pairwise (· < ·))
    (h : ∀ k, find? k xs = find? k ys) : xs = ys := by
  induction xs generalizing ys with
  | nil =>
    cases ys with
    | nil => rfl
    | cons y ys =>
      have := h y.1
      simp [find?] at this
  | cons x xs ih =>
    cases ys with
    | nil =>
      have := h x.1
      simp [find?] at this
    | cons y ys =>
      obtain ⟨kx, ax⟩ := x
      obtain ⟨ky, ay⟩ := y
      rw [List.map_cons, List.pairwise_cons] at hx hy
      have hkey : kx = ky := by
        rcases KeyOrder.total kx ky with hlt | heq | hgt
        · have h1 : find? kx ((ky, ay) :: ys) = none :=
            find?_eq_none_of_forall_lt fun k hk => by
              rcases List.mem_cons.1 hk with rfl | hk
              · exact hlt
              · exact KeyOrder.trans hlt (hy.1 k hk)
          have h2 := h kx
          rw [h1] at h2
          simp [find?] at h2
        · exact heq
        · have h1 : find? ky ((kx, ax) :: xs) = none :=
            find?_eq_none_of_forall_lt fun k hk => by
              rcases List.mem_cons.1 hk with rfl | hk
              · exact hgt
              · exact KeyOrder.trans hgt (hx.1 k hk)
          have h2 := h ky
          rw [h1] at h2
          simp [find?] at h2
      subst hkey
      have hval : ax = ay := by simpa [find?] using h kx
      subst hval
      have hrest : xs = ys := ih hx.2 hy.2 fun k => by
        by_cases hk : k = kx
        · subst hk
          rw [find?_eq_none_of_forall_lt hx.1, find?_eq_none_of_forall_lt hy.1]
        · have := h k
          simpa [find?, hk] using this
      rw [hrest]

theorem ext_get? [KeyOrder κ] {m n : SortedMap κ α} (h : ∀ k, m.get? k = n.get? k) : m = n := by
  have := entries_ext m.ascending n.ascending h
  cases m
  cases n
  cases this
  rfl

end Laws

end SortedMap

end BuildConfig
