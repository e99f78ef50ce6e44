import BisayaPlus.Value

/-!
The store of variables. It has no scopes: a name that is declared anywhere is known from then on.
-/

namespace BisayaPlus

/-- The declared variables, the latest first. No name is there twice. -/
structure Store where
  bindings : List (String × Value)
  distinct : (bindings.map Prod.fst).Nodup

inductive NameFault where
  | alreadyDeclared (name : String)
  | undeclared (name : String)
  deriving DecidableEq

def NameFault.message : NameFault → String
  | .alreadyDeclared name => "Variable '" ++ name ++ "' is already declared"
  | .undeclared name => "Undefined variable '" ++ name ++ "'"

namespace Store

def empty : Store :=
  ⟨[], List.nodup_nil⟩

def get? (s : Store) (name : String) : Option Value :=
  s.bindings.lookup name

def contains (s : Store) (name : String) : Bool :=
  (s.bindings.map Prod.fst).contains name

private theorem contains_map_fst (bs : List (String × Value)) (name : String) :
    (bs.map Prod.fst).contains name = (bs.lookup name).isSome := by
  induction bs with
  | nil => rfl
  | cons b rest ih =>
    by_cases h : name = b.1
    · simp [h]
    · have hb : (name == b.1) = false := beq_eq_false_iff_ne.2 h
      rw [List.map_cons, List.contains_cons, List.lookup_cons, hb, Bool.false_or, ih]

theorem contains_eq_isSome_get? (s : Store) (name : String) :
    s.contains name = (s.get? name).isSome :=
  contains_map_fst s.bindings name

def get (s : Store) (name : String) : Except NameFault Value :=
  match s.get? name with
  | some v => .ok v
  | none => .error (.undeclared name)

def declare (s : Store) (name : String) (v : Value) : Except NameFault Store :=
  if h : s.contains name then
    .error (.alreadyDeclared name)
  else
    .ok ⟨(name, v) :: s.bindings,
      List.nodup_cons.2 ⟨fun hmem => h (List.contains_iff_mem.2 hmem), s.distinct⟩⟩

/-- A declaration gives its name a value and leaves all other names alone. -/
theorem get?_of_declare {s t : Store} {name : String} {v : Value}
    (h : s.declare name v = .ok t) (other : String) :
    t.get? other = if other = name then some v else s.get? other := by
  unfold declare at h
  split at h
  · cases h
  · cases h
    by_cases hn : other = name
    · simp [get?, hn]
    · have hb : (other == name) = false := beq_eq_false_iff_ne.2 hn
      simp [get?, List.lookup_cons, hb, hn]

private theorem map_fst_update (bs : List (String × Value)) (name : String) (v : Value) :
    (bs.map fun b => if b.1 = name then (name, v) else b).map Prod.fst = bs.map Prod.fst := by
  rw [List.map_map]
  apply List.map_congr_left
  intro b _
  by_cases h : b.1 = name <;> simp [h]

def update (s : Store) (name : String) (v : Value) : Store :=
  ⟨s.bindings.map fun b => if b.1 = name then (name, v) else b,
    map_fst_update s.bindings name v ▸ s.distinct⟩

private theorem lookup_map_update (bs : List (String × Value)) (name other : String)
    (v : Value) :
    (bs.map fun b => if b.1 = name then (name, v) else b).lookup other =
      if other = name then (bs.lookup name).map fun _ => v else bs.lookup other := by
  induction bs with
  | nil => by_cases hn : other = name <;> simp [hn]
  | cons b rest ih =>
    obtain ⟨x, w⟩ := b
    rw [List.map_cons]
    by_cases hx : x = name
    · subst hx
      by_cases hn : other = x
      · simp [hn]
      · have ho : (other == x) = false := beq_eq_false_iff_ne.2 hn
        simp [List.lookup_cons, ho, ih, hn]
    · by_cases ho : other = x
      · subst ho
        simp [hx]
      · have hb : (other == x) = false := beq_eq_false_iff_ne.2 ho
        have hb' : (name == x) = false := beq_eq_false_iff_ne.2 (Ne.symm hx)
        simp [List.lookup_cons, hx, hb, hb', ih]

/-- An update gives the name its value if the name is there, and changes no other name. -/
theorem get?_update (s : Store) (name other : String) (v : Value) :
    (s.update name v).get? other =
      if other = name then (s.get? name).map fun _ => v else s.get? other :=
  lookup_map_update s.bindings name other v

def assign (s : Store) (name : String) (v : Value) : Except NameFault Store :=
  if s.contains name then .ok (s.update name v) else .error (.undeclared name)

end Store

end BisayaPlus
