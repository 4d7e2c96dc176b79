namespace ObjectCache.Signing

structure Fields where
  entries : List (String × String)
  sorted : entries.Pairwise (fun a b => a.1 < b.1)
deriving DecidableEq

namespace Fields

def empty : Fields := ⟨[], .nil⟩

def names (f : Fields) : List String := f.entries.map (·.1)

def get? (f : Fields) (name : String) : Option String :=
  (f.entries.find? (·.1 == name)).map (·.2)

def insertEntry (name value : String) : List (String × String) → List (String × String)
  | [] => [(name, value)]
  | e :: rest =>
      if name < e.1 then (name, value) :: e :: rest
      else if e.1 < name then e :: insertEntry name value rest
      else (name, value) :: rest

theorem lt_of_mem_insertEntry {name value bound : String} {es : List (String × String)}
    (hn : bound < name) (hs : ∀ e ∈ es, bound < e.1) :
    ∀ e ∈ insertEntry name value es, bound < e.1 := by
  induction es with
  | nil => exact List.forall_mem_cons.2 ⟨hn, hs⟩
  | cons d es ih =>
      have hes := (List.forall_mem_cons.1 hs).2
      simp only [insertEntry]
      split
      · exact List.forall_mem_cons.2 ⟨hn, hs⟩
      · split
        · exact List.forall_mem_cons.2 ⟨hs d (.head _), ih hes⟩
        · exact List.forall_mem_cons.2 ⟨hn, hes⟩

theorem sorted_insertEntry (name value : String) (es : List (String × String))
    (hs : es.Pairwise (fun a b => a.1 < b.1)) :
    (insertEntry name value es).Pairwise (fun a b => a.1 < b.1) := by
  induction es with
  | nil => simp [insertEntry]
  | cons d es ih =>
      rw [List.pairwise_cons] at hs
      simp only [insertEntry]
      split
      · rename_i hlt
        refine .cons ?_ (.cons hs.1 hs.2)
        simp only [List.mem_cons, forall_eq_or_imp]
        exact ⟨hlt, fun e he => String.lt_trans hlt (hs.1 e he)⟩
      · split
        · rename_i hlt
          exact .cons (lt_of_mem_insertEntry hlt hs.1) (ih hs.2)
        · rename_i hge hle
          have heq : name = d.1 :=
            String.le_antisymm (String.not_lt.1 hle) (String.not_lt.1 hge)
          exact .cons (heq ▸ hs.1) hs.2

def insert (f : Fields) (name value : String) : Fields :=
  ⟨insertEntry name value f.entries, sorted_insertEntry name value f.entries f.sorted⟩

def erase (f : Fields) (name : String) : Fields :=
  ⟨f.entries.filter (·.1 != name), f.sorted.filter _⟩

def ofList (pairs : List (String × String)) : Fields :=
  pairs.foldl (fun f p => f.insert p.1 p.2) empty

end Fields

end ObjectCache.Signing
