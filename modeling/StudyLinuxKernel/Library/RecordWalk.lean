namespace StudyLinuxKernel.Library.RecordWalk

/-- The loop `for (ptr = ...; ptr < len; ptr += size(header))` over a buffer.
There is no result where a header lies outside the buffer or the fuel runs out. -/
def walk {β η σ : Type} (header : List β → Option η) (size : η → Nat)
    (body : Nat → η → σ → Option σ) (buf : List β) (len : Nat) :
    Nat → Nat → σ → Option (Nat × σ)
  | 0, ptr, s => if ptr < len then none else some (ptr, s)
  | fuel + 1, ptr, s =>
      if ptr < len then do
        let h ← header (buf.drop ptr)
        let s ← body ptr h s
        walk header size body buf len fuel (ptr + size h) s
      else some (ptr, s)

/-- How records lie in a buffer: the header is read off the front of the
encoding and tells its length. -/
structure Layout (ρ β η : Type) where
  encode : ρ → List β
  head : ρ → η
  header : List β → Option η
  size : η → Nat
  header_encode : ∀ r rest, header (encode r ++ rest) = some (head r)
  size_head : ∀ r, size (head r) = (encode r).length
  encode_ne_nil : ∀ r, encode r ≠ []

namespace Layout

variable {ρ β η σ : Type} (L : Layout ρ β η)

def encodeAll (records : List ρ) : List β := records.flatMap L.encode

/-- Every record with what lies behind it in the buffer. -/
def placed (rest : List β) : List ρ → List (ρ × List β)
  | [] => []
  | r :: records => (r, L.encodeAll records ++ rest) :: placed rest records

@[simp] theorem encodeAll_nil : L.encodeAll [] = [] := rfl

@[simp] theorem encodeAll_cons (r : ρ) (records : List ρ) :
    L.encodeAll (r :: records) = L.encode r ++ L.encodeAll records := rfl

@[simp] theorem map_fst_placed (rest : List β) (records : List ρ) :
    (L.placed rest records).map Prod.fst = records := by
  induction records with
  | nil => rfl
  | cons r records ih => simp [placed, ih]

theorem length_le_length_encodeAll (records : List ρ) :
    records.length ≤ (L.encodeAll records).length := by
  induction records with
  | nil => exact Nat.le_refl 0
  | cons r records ih =>
      have hencode := List.length_pos_iff.mpr (L.encode_ne_nil r)
      rw [List.length_cons, encodeAll_cons, List.length_append]
      omega

/-- The loop visits the records in their order and stops behind the last one.
Its pointer is at the start of a record all along; `front` is what it has
passed. -/
theorem walk_encodeAll {body : Nat → η → σ → Option σ} {step : σ → ρ × List β → Option σ}
    {buf : List β} (rest : List β)
    (hbody : ∀ front r behind s, buf = front ++ L.encode r ++ behind →
      body front.length (L.head r) s = step s (r, behind))
    (records : List ρ) :
    ∀ (front : List β) (fuel : Nat) (s : σ), buf = front ++ L.encodeAll records ++ rest →
      records.length ≤ fuel →
      walk L.header L.size body buf (front.length + (L.encodeAll records).length) fuel
          front.length s =
        ((L.placed rest records).foldlM step s).map fun s' =>
          (front.length + (L.encodeAll records).length, s') := by
  induction records with
  | nil =>
      intro front fuel s _ _
      cases fuel <;> simp [walk, placed]
  | cons r records ih =>
      intro front fuel s hbuf hfuel
      obtain ⟨fuel, rfl⟩ : ∃ n, fuel = n + 1 := ⟨fuel - 1, by simp at hfuel; omega⟩
      have hencode := List.length_pos_iff.mpr (L.encode_ne_nil r)
      have hbuf' : buf = front ++ L.encode r ++ (L.encodeAll records ++ rest) := by
        rw [hbuf, encodeAll_cons]
        simp only [List.append_assoc]
      have hdrop : L.header (buf.drop front.length) = some (L.head r) := by
        rw [hbuf', List.append_assoc, List.drop_left, L.header_encode]
      have hlen : front.length + (L.encodeAll (r :: records)).length =
          (front ++ L.encode r).length + (L.encodeAll records).length := by
        simp only [encodeAll_cons, List.length_append]
        omega
      have hlt : front.length < (front ++ L.encode r).length + (L.encodeAll records).length := by
        rw [List.length_append]
        omega
      rw [hlen, walk, if_pos hlt, hdrop, placed, List.foldlM_cons]
      simp only [Option.bind_eq_bind, Option.bind_some]
      rw [hbody front r _ s hbuf', L.size_head, ← @List.length_append _ front (L.encode r)]
      cases hstep : step s (r, L.encodeAll records ++ rest) with
      | none => rfl
      | some s' =>
          refine ih (front ++ L.encode r) fuel s' ?_ (by simp at hfuel; omega)
          rw [hbuf', List.append_assoc, List.append_assoc, List.append_assoc]

end Layout

end StudyLinuxKernel.Library.RecordWalk
