import LuaBytecode.Value

/-! # Tables

A table is a list of entries in the order in which their keys came in. Setting a key that is present
replaces its value and leaves it in place; a nil value is stored like any other.
-/

namespace LuaBytecode

/-- Entries in order of insertion; no key occurs twice, and none is nil. -/
structure Table where
  entries : List (Value × Value)
  keys_nodup : (entries.map Prod.fst).Nodup
  nil_notMem : Value.nil ∉ entries.map Prod.fst

namespace Table

def keys (t : Table) : List Value := t.entries.map Prod.fst

def empty : Table := ⟨[], List.nodup_nil, List.not_mem_nil⟩

instance : Inhabited Table := ⟨empty⟩

/-! ## Reading -/

/-- The value of a key, nil where the key is absent. -/
def get (t : Table) (k : Value) : Value :=
  (t.entries.lookup k).getD .nil

def contains (t : Table) (k : Value) : Bool := t.keys.contains k

/-- Number of entries. -/
def size (t : Table) : Nat := t.entries.length

/-- The key that came in last. -/
def lastKey? (t : Table) : Option Value := t.keys.getLast?

/-- Whether the keys are 1, 2, 3 and so on, in this order. -/
def isSequence (t : Table) : Bool :=
  t.keys.zipIdx.all fun (k, i) => k = .int (Int64.ofNat (i + 1))

/-! ## Writing -/

/-- Replace the value of a key where it stands, or add the entry at the end. -/
def insertEntry (k v : Value) : List (Value × Value) → List (Value × Value)
  | [] => [(k, v)]
  | e :: rest => if e.1 = k then (k, v) :: rest else e :: insertEntry k v rest

theorem keys_insertEntry (k v : Value) (es : List (Value × Value)) :
    (insertEntry k v es).map Prod.fst
      = if k ∈ es.map Prod.fst then es.map Prod.fst else es.map Prod.fst ++ [k] := by
  induction es with
  | nil => simp [insertEntry]
  | cons e rest ih =>
    by_cases h : e.1 = k
    · simp [insertEntry, h]
    · have h' : ¬ k = e.1 := fun hk => h hk.symm
      simp only [insertEntry, h, if_false, List.map_cons, ih, List.mem_cons, h', false_or]
      split <;> simp_all

/-- Set a key that is not nil. -/
def insert (t : Table) (k v : Value) (hk : k ≠ .nil) : Table where
  entries := insertEntry k v t.entries
  keys_nodup := by
    rw [keys_insertEntry]
    split
    · exact t.keys_nodup
    · refine List.nodup_append.2 ⟨t.keys_nodup, by simp, ?_⟩
      intro a ha b hb hab
      simp_all
  nil_notMem := by
    rw [keys_insertEntry]
    have h := t.nil_notMem
    split
    · exact h
    · simp only [List.mem_append, List.mem_singleton]
      rintro (hmem | hnil)
      · exact h hmem
      · exact hk hnil.symm

/-- Why a nil key is refused. -/
def nilKeyText : String := "table index is nil"

/-- Set a key; a nil key is refused. -/
def set? (t : Table) (k v : Value) : Option Table :=
  if hk : k = .nil then none else some (t.insert k v hk)

/-- Set the integer keys from `first` on to the values in order. -/
def insertFrom (t : Table) (first : Nat) : List Value → Table
  | [] => t
  | v :: rest => insertFrom (t.insert (.int (Int64.ofNat first)) v nofun) (first + 1) rest

/-- The values under the keys 1, 2, 3 and so on. -/
def ofValues (values : List Value) : Table := empty.insertFrom 1 values

/-- The entries that pass a test. -/
def filter (t : Table) (p : Value × Value → Bool) : Table where
  entries := t.entries.filter p
  keys_nodup := t.keys_nodup.sublist (List.Sublist.map _ List.filter_sublist)
  nil_notMem := fun h => t.nil_notMem ((List.Sublist.map _ List.filter_sublist).mem h)

/-- Leave out a key; the others keep their order. -/
def erase (t : Table) (k : Value) : Table := t.filter fun e => e.1 ≠ k

/-- Remove a key, and give back the value it had if it was there. -/
def remove (t : Table) (k : Value) : Option Value × Table := (t.entries.lookup k, t.erase k)

/-- Set the entries one after the other; entries with a nil key are left out. -/
def ofEntries (entries : List (Value × Value)) : Table :=
  entries.foldl (fun t e => (t.set? e.1 e.2).getD t) empty

end Table

end LuaBytecode
