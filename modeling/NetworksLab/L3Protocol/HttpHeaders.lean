import NetworksLab.Core.LTS
import NetworksLab.L3Protocol.HttpMessage

/-!
# Header lists over many calls (`individual/lib/HTTP.cpp`)

`THttpHeaders` is used through `Append`, `Update` and `Remove`, which keep
`Values_` and `Headers_` together, and through lookups. `Values_` is mutable:
`operator[](key)` is one of the lookups, and adds the key if it is not there.

Arguments are references, and the lookups return some into the object: `appendRef`,
`updateRef` and `removeRef` read theirs where the source does, at each turn of a
loop again. With an argument of the caller's they are `append`, `update` and `remove`.

Results:
* `edits_represents`: after any calls whose arguments stay as they are meanwhile, the
  map and the list agree, and the last one did to the list what it is for.
* `own_key_lost`: the key of a header in the list, given to `Remove`, need not.
* `lookup_pure_iff`: which lookups change no later result.
-/
namespace NetworksLab.L3.Http
namespace THttpHeaders

/-! ## Edits -/

/-- An edit, with its argument as it is at the call. -/
inductive Edit where
  | append (header : THttpHeader)
  | update (header : THttpHeader)
  | remove (key : Bytes)
  deriving DecidableEq, Repr

def edit (hs : THttpHeaders) : Edit → THttpHeaders
  | .append header => hs.append header
  | .update header => hs.update header
  | .remove key => hs.remove key

/-- The headers with other keys. -/
def others (headers : List THttpHeader) (key : Bytes) : List THttpHeader :=
  headers.filter fun h => decide (h.key ≠ key)

/-- The map has exactly the keys of the list, with their first values, and
`Find` returns the first header of a key. -/
structure Represents (hs : THttpHeaders) : Prop where
  mapped : ∀ key, (∃ value, hs.values key = some value) ↔ ∃ h ∈ hs.headers, h.key = key
  value : ∀ key, hs.values key = (first hs.headers key).map (·.value)
  find : ∀ key, hs.find key = first hs.headers key

/-- What an edit is for: the other headers are as they were, in their order;
behind `Update` the key is there with the new value only, behind `Remove` it is
not there. -/
def Edit.Does (before after : List THttpHeader) : Edit → Prop
  | .append header => after = before ++ [header]
  | .update header => (∃ h ∈ after, h.key = header.key) ∧
      (∀ h ∈ after, h.key = header.key → h.value = header.value) ∧
      others after header.key = others before header.key
  | .remove key => (∀ h ∈ after, h.key ≠ key) ∧ others after key = others before key

theorem first_key {headers : List THttpHeader} {key : Bytes} {h : THttpHeader}
    (hf : first headers key = some h) : h.key = key := by
  simpa [first] using List.find?_some hf

theorem Consistent.represents {hs : THttpHeaders} (h : hs.Consistent) : hs.Represents where
  mapped key := by
    rw [h key]
    cases hf : first hs.headers key with
    | none =>
      rw [first_eq_none] at hf
      exact iff_of_false (by simp) fun ⟨x, hx, hk⟩ => hf x hx hk
    | some x => exact iff_of_true ⟨_, rfl⟩ ⟨x, List.mem_of_find?_eq_some hf, first_key hf⟩
  value := h
  find key := by
    rw [find, h key]
    cases hf : first hs.headers key with
    | none => rfl
    | some x =>
      obtain rfl := first_key hf
      rfl

theorem edit_consistent {hs : THttpHeaders} (h : hs.Consistent) (e : Edit) : (hs.edit e).Consistent := by
  cases e with
  | append header => exact append_consistent h header
  | update header => exact update_consistent h header
  | remove key => exact remove_consistent h key

/-- Replacing the headers of a key, or adding one, leaves the others. -/
theorem others_update (hs : THttpHeaders) (header : THttpHeader) :
    others (hs.update header).headers header.key = others hs.headers header.key := by
  unfold update
  split
  · simp [append, others]
  · simp only [others]
    induction hs.headers with
    | nil => rfl
    | cons x headers ih =>
      by_cases hx : x.key = header.key
      · simpa [hx] using ih
      · simpa [hx] using ih

theorem edit_does {hs : THttpHeaders} (h : hs.Consistent) (e : Edit) :
    e.Does hs.headers (hs.edit e).headers := by
  cases e with
  | append header => rfl
  | update header =>
    obtain ⟨hmem, hall⟩ := mem_update h header
    exact ⟨⟨header, hmem, rfl⟩, fun x hx hk => congrArg THttpHeader.value (hall x hx hk),
      others_update hs header⟩
  | remove key => exact ⟨fun x hx => (mem_remove.mp hx).2, by simp [edit, others, remove]⟩

/-! ## Arguments in the object -/

/-- A `const THttpHeader&`: one of the caller's, or what `operator[](i)` refers to. -/
inductive HeaderRef where
  | own (header : THttpHeader)
  | element (i : Nat)
  deriving DecidableEq, Repr

/-- A `const std::string&`: one of the caller's, the key or the value of what
`operator[](i)` refers to, or what `operator[](key)` refers to, for a key that is in
`Values_`. -/
inductive StringRef where
  | own (s : Bytes)
  | key (i : Nat)
  | value (i : Nat)
  | mapped (key : Bytes)
  deriving DecidableEq, Repr

inductive Call where
  | append (header : HeaderRef)
  | update (header : HeaderRef)
  | remove (key : StringRef)
  deriving DecidableEq, Repr

/-- What the caller does not know: whether `emplace_back` moves `Headers_` to new
memory, and what a string holds that has been moved from. -/
structure Memory where
  moves : Bool
  moved : Bytes
  deriving DecidableEq, Repr

/-- `Append`. `none`: it reads the header in memory that `Headers_` has left.
mirrors individual/lib/HTTP.cpp:121-127 -/
def appendRef (m : Memory) (hs : THttpHeaders) : HeaderRef → Option THttpHeaders
  | .own header => some (hs.append header)
  | .element i => if m.moves then none else hs.headers[i]?.map hs.append

/-- The loop of `Update` at the indices that are left, with the `i`-th header.
mirrors individual/lib/HTTP.cpp:136-140 -/
def updateLoop (i : Nat) : List Nat → List THttpHeader → List THttpHeader
  | [], headers => headers
  | j :: js, headers =>
    match headers[i]?, headers[j]? with
    | some header, some h => updateLoop i js (if h.key = header.key then headers.set j header else headers)
    | _, _ => updateLoop i js headers

/-- mirrors individual/lib/HTTP.cpp:129-141 -/
def updateRef (m : Memory) (hs : THttpHeaders) : HeaderRef → Option THttpHeaders
  | .own header => some (hs.update header)
  | .element i =>
    match hs.headers[i]? with
    | none => none
    | some header =>
      if hs.values header.key = none then hs.appendRef m (.element i)
      else some ⟨updateLoop i (List.range hs.headers.length) hs.headers,
        Function.update hs.values header.key (some header.value)⟩

/-- `std::remove_if` on the headers from index `j` on, with those that it has kept.
The key stands in a header of its own, or in the `slot` that `ref` reads: that is
moved from when a kept header moves down out of it, and overwritten when one moves
down into it.
mirrors individual/lib/HTTP.cpp:146-152 -/
def removeIf (slot : Option Nat) (ref : THttpHeader → Bytes) (moved : Bytes) :
    List THttpHeader → Nat → Bytes → List THttpHeader → List THttpHeader
  | [], _, _, kept => kept
  | h :: headers, j, key, kept =>
    if h.key = key then removeIf slot ref moved headers (j + 1) key kept
    else
      removeIf slot ref moved headers (j + 1)
        (if kept.length = j then key
          else if slot = some kept.length then ref h
          else if slot = some j then moved
          else key) (kept ++ [h])

/-- `Remove`. `none`: it reads a key that `Values_.erase` has destroyed, or there is
nothing that the argument could refer to.
mirrors individual/lib/HTTP.cpp:143-155 -/
def removeRef (m : Memory) (hs : THttpHeaders) : StringRef → Option THttpHeaders
  | .own key => some ⟨removeIf none THttpHeader.key m.moved hs.headers 0 key [], Function.update hs.values key none⟩
  | .key i => hs.headers[i]?.map fun h =>
    ⟨removeIf (some i) THttpHeader.key m.moved hs.headers 0 h.key [], Function.update hs.values h.key none⟩
  | .value i => hs.headers[i]?.map fun h =>
    ⟨removeIf (some i) THttpHeader.value m.moved hs.headers 0 h.value [], Function.update hs.values h.value none⟩
  | .mapped key =>
    match hs.values key with
    | none => none
    | some s =>
      if s = key ∧ hs.headers ≠ [] then none
      else some ⟨removeIf none THttpHeader.key m.moved hs.headers 0 s [], Function.update hs.values s none⟩

def callRef (m : Memory) (hs : THttpHeaders) : Call → Option THttpHeaders
  | .append header => hs.appendRef m header
  | .update header => hs.updateRef m header
  | .remove key => hs.removeRef m key

/-- An object from its constructor on. -/
def editing : LTS THttpHeaders (Call × Memory) where
  init hs := ∃ headers, hs = make headers
  step hs c hs' := hs.callRef c.2 c.1 = some hs'

/-- When the headers with a key are removed, the `i`-th one is neither moved from nor
written over: none goes up to it, or it goes itself and those that are kept do not
reach it. -/
def Stays (headers : List THttpHeader) (i : Nat) (key : Bytes) : Prop :=
  (∀ h ∈ headers.take (i + 1), h.key ≠ key) ∨
    (∃ h, headers[i]? = some h ∧ h.key = key) ∧ (others headers key).length ≤ i

/-- What the argument refers to stays as it is while the call reads it. In the object,
a header given to `Append` does if the list does not move, and one given to `Update` in
any case; a key or a value given to `Remove`, if its header stays, and a mapped value,
if it is not that of the entry to be erased. -/
def Steady (hs : THttpHeaders) (m : Memory) : Call → Prop
  | .append (.own _) | .update (.own _) | .remove (.own _) => True
  | .append (.element i) => i < hs.headers.length ∧ m.moves = false
  | .update (.element i) => i < hs.headers.length
  | .remove (.key i) => ∃ h, hs.headers[i]? = some h ∧ Stays hs.headers i h.key
  | .remove (.value i) => ∃ h, hs.headers[i]? = some h ∧ Stays hs.headers i h.value
  | .remove (.mapped key) => ∃ s, hs.values key = some s ∧ s ≠ key

def HeaderRef.get (hs : THttpHeaders) : HeaderRef → Option THttpHeader
  | .own header => some header
  | .element i => hs.headers[i]?

def StringRef.get (hs : THttpHeaders) : StringRef → Option Bytes
  | .own s => some s
  | .key i => hs.headers[i]?.map (·.key)
  | .value i => hs.headers[i]?.map (·.value)
  | .mapped name => hs.values name

/-- The call with a copy of its argument. -/
def Call.edit (hs : THttpHeaders) : Call → Option Edit
  | .append header => (header.get hs).map .append
  | .update header => (header.get hs).map .update
  | .remove key => (key.get hs).map .remove

section
variable {ref : THttpHeader → Bytes} {moved key : Bytes}

theorem others_cons_self {h : THttpHeader} (hk : h.key = key) (headers : List THttpHeader) :
    others (h :: headers) key = others headers key := List.filter_cons_of_neg (by simp [hk])

theorem others_cons_of_ne {h : THttpHeader} (hk : h.key ≠ key) (headers : List THttpHeader) :
    others (h :: headers) key = h :: others headers key := List.filter_cons_of_pos (by simp [hk])

/-- The turn of the loop at a header that is kept, with the slot as it is. -/
theorem removeIf_keep {slot : Option Nat} {h : THttpHeader} (hk : h.key ≠ key) {j : Nat} {kept : List THttpHeader}
    (hslot : kept.length = j ∨ slot ≠ some kept.length ∧ slot ≠ some j) (headers : List THttpHeader) :
    removeIf slot ref moved (h :: headers) j key kept =
      removeIf slot ref moved headers (j + 1) key (kept ++ [h]) := by
  rw [removeIf, if_neg hk]
  congr 1
  rcases hslot with hj | ⟨hover, hmoved⟩
  · rw [if_pos hj]
  · rw [if_neg hover, if_neg hmoved, ite_self]

theorem removeIf_drop {slot : Option Nat} {h : THttpHeader} (hk : h.key = key) (j : Nat) (kept : List THttpHeader)
    (headers : List THttpHeader) : removeIf slot ref moved (h :: headers) j key kept =
      removeIf slot ref moved headers (j + 1) key kept := by
  rw [removeIf, if_pos hk]

/-- Up to a header, and with it, when it is kept. -/
theorem length_others_take_succ {headers : List THttpHeader} {n : Nat} {h : THttpHeader}
    (hn : headers[n]? = some h) (hk : h.key ≠ key) :
    (others (headers.take (n + 1)) key).length = (others (headers.take n) key).length + 1 := by
  obtain ⟨hlt, hget⟩ := List.getElem?_eq_some_iff.mp hn
  have hkeeps : others [h] key = [h] := others_cons_of_ne hk []
  rw [List.take_succ_eq_append_getElem hlt, hget, others, List.filter_append, List.length_append, ← others,
    ← others, hkeeps, List.length_singleton]

theorem length_others_le {headers headers' : List THttpHeader} (h : headers <+: headers') (key : Bytes) :
    (others headers key).length ≤ (others headers' key).length :=
  (h.filter _).length_le

/-- As long as no header that is kept moves out of the slot or into it. -/
theorem removeIf_untouched {slot : Option Nat} : ∀ (headers : List THttpHeader) (j : Nat) (kept : List THttpHeader),
    (∀ n h, headers[n]? = some h → h.key ≠ key →
      kept.length + (others (headers.take n) key).length = j + n ∨
        slot ≠ some (kept.length + (others (headers.take n) key).length) ∧ slot ≠ some (j + n)) →
    removeIf slot ref moved headers j key kept = kept ++ others headers key
  | [], _, kept, _ => (List.append_nil kept).symm
  | h :: headers, j, kept, hslot => by
    by_cases hk : h.key = key
    · rw [removeIf_drop hk, others_cons_self hk]
      refine removeIf_untouched headers (j + 1) kept fun n x hx hne => ?_
      have hnext := hslot (n + 1) x hx hne
      rwa [List.take_succ_cons, others_cons_self hk, ← Nat.add_assoc, Nat.add_right_comm] at hnext
    · have hhead : kept.length = j ∨ slot ≠ some kept.length ∧ slot ≠ some j := hslot 0 h rfl hk
      rw [removeIf_keep hk hhead, others_cons_of_ne hk, List.append_cons kept h (others headers key)]
      refine removeIf_untouched headers (j + 1) (kept ++ [h]) fun n x hx hne => ?_
      have hnext := hslot (n + 1) x hx hne
      rw [List.take_succ_cons, others_cons_of_ne hk, List.length_cons, ← Nat.add_assoc, ← Nat.add_assoc] at hnext
      rwa [List.length_append, List.length_singleton, Nat.add_right_comm kept.length, Nat.add_right_comm j]

/-- With a key of the caller's. -/
theorem removeIf_none (headers : List THttpHeader) : removeIf none ref moved headers 0 key [] = others headers key :=
  removeIf_untouched headers 0 [] fun _ _ _ _ =>
    .inr ⟨(Option.some_ne_none _).symm, (Option.some_ne_none _).symm⟩

theorem removeIf_stays {headers : List THttpHeader} {i : Nat} (h : Stays headers i key) :
    removeIf (some i) ref moved headers 0 key [] = others headers key := by
  refine removeIf_untouched headers 0 [] fun n x hn hk => ?_
  simp only [List.length_nil, Nat.zero_add, ne_eq, Option.some.injEq]
  rcases h with hstay | ⟨⟨y, hi, hgoes⟩, hle⟩
  · -- as many are kept as there are, up to the slot
    have hall {m : Nat} (hm : m ≤ i + 1) : others (headers.take m) key = headers.take m :=
      List.filter_eq_self.mpr fun z hz => decide_eq_true (hstay z ((List.take_prefix_take_left hm).subset hz))
    have hlt : n < headers.length := (List.getElem?_eq_some_iff.mp hn).1
    by_cases hni : n ≤ i
    · exact .inl (by rw [hall (by omega), List.length_take]; omega)
    · have hbehind := length_others_le (List.take_prefix_take_left (l := headers) (show i + 1 ≤ n by omega)) key
      rw [hall (Nat.le_refl _), List.length_take] at hbehind
      exact .inr ⟨by omega, by omega⟩
  · have hnext := length_others_take_succ hn hk
    have hall := length_others_le (List.take_prefix (n + 1) headers) key
    refine .inr ⟨by omega, fun hni => ?_⟩
    rw [hni, hn] at hi
    exact hk (Option.some.inj hi ▸ hgoes)

end

theorem removeRef_own (m : Memory) (hs : THttpHeaders) (key : Bytes) :
    hs.removeRef m (.own key) = some (hs.remove key) := by
  rw [removeRef, removeIf_none]
  rfl

/-- A steady key, wherever it is. -/
theorem removeRef_steady {m : Memory} {hs : THttpHeaders} {r : StringRef} (h : hs.Steady m (.remove r)) :
    ∃ key, r.get hs = some key ∧ hs.removeRef m r = some (hs.remove key) := by
  cases r with
  | own key => exact ⟨key, rfl, removeRef_own m hs key⟩
  | key i =>
    obtain ⟨x, hx, hstays⟩ := h
    refine ⟨x.key, by rw [StringRef.get, hx]; rfl, ?_⟩
    rw [removeRef, hx, Option.map_some, removeIf_stays hstays]
    rfl
  | value i =>
    obtain ⟨x, hx, hstays⟩ := h
    refine ⟨x.value, by rw [StringRef.get, hx]; rfl, ?_⟩
    rw [removeRef, hx, Option.map_some, removeIf_stays hstays]
    rfl
  | mapped key =>
    obtain ⟨s, hs', hne⟩ := h
    refine ⟨s, hs', ?_⟩
    simp only [removeRef, hs', if_neg fun he : s = key ∧ hs.headers ≠ [] => hne he.1, removeIf_none]
    rfl

/-- One turn of the loop: the `i`-th header stays, as it is replaced by itself. -/
theorem updateLoop_cons {i j : Nat} (js : List Nat) {headers : List THttpHeader} {header : THttpHeader}
    (hi : headers[i]? = some header) : ∃ headers', updateLoop i (j :: js) headers = updateLoop i js headers' ∧
      headers'[i]? = some header ∧
      ∀ n, headers'[n]? = headers[n]?.map fun h => if n = j ∧ h.key = header.key then header else h := by
  have hid (n : Nat) (hno : ∀ h, headers[n]? = some h → ¬ (n = j ∧ h.key = header.key)) :
      headers[n]? = headers[n]?.map fun h => if n = j ∧ h.key = header.key then header else h := by
    cases hn : headers[n]? with
    | none => rfl
    | some h => rw [Option.map_some, if_neg (hno h hn)]
  cases hj : headers[j]? with
  | none =>
    refine ⟨headers, by simp only [updateLoop, hi, hj], hi, fun n => hid n fun h hn heq => ?_⟩
    rw [← heq.1, hn] at hj
    cases hj
  | some h =>
    by_cases hk : h.key = header.key
    · refine ⟨headers.set j header, by simp only [updateLoop, hi, hj, if_pos hk], ?_, fun n => ?_⟩
      · by_cases hij : j = i
        · subst hij
          exact List.getElem?_set_self (List.getElem?_eq_some_iff.mp hj).1
        · rw [List.getElem?_set_ne hij, hi]
      · by_cases hnj : n = j
        · subst hnj
          rw [List.getElem?_set_self (List.getElem?_eq_some_iff.mp hj).1, hj, Option.map_some, if_pos ⟨rfl, hk⟩]
        · rw [List.getElem?_set_ne (Ne.symm hnj)]
          exact hid n fun h _ heq => hnj heq.1
    · refine ⟨headers, by simp only [updateLoop, hi, hj, if_neg hk], hi, fun n => hid n fun h' hn heq => ?_⟩
      rw [heq.1, hj] at hn
      exact hk (Option.some.inj hn ▸ heq.2)

theorem updateLoop_getElem? {i : Nat} {header : THttpHeader} : ∀ (js : List Nat) {headers : List THttpHeader},
    headers[i]? = some header → ∀ n, (updateLoop i js headers)[n]? =
      headers[n]?.map fun h => if n ∈ js ∧ h.key = header.key then header else h
  | [], headers, _, n => by simp [updateLoop]
  | j :: js, headers, hi, n => by
    obtain ⟨headers', heq, hi', hn⟩ := updateLoop_cons (j := j) js hi
    rw [heq, updateLoop_getElem? js hi' n, hn, Option.map_map]
    congr 1
    funext h
    by_cases hnj : n = j <;> by_cases hk : h.key = header.key <;> simp [hnj, hk]

/-- `Update` with a header of the object is `Update` with a copy of it. -/
theorem updateRef_element {hs : THttpHeaders} (hc : hs.Consistent) (m : Memory) {i : Nat} {header : THttpHeader}
    (hi : hs.headers[i]? = some header) : hs.updateRef m (.element i) = some (hs.update header) := by
  have hmapped : hs.values header.key ≠ none := by
    rw [hc, Ne, Option.map_eq_none_iff, first_eq_none]
    exact fun hno => hno header (List.mem_of_getElem? hi) rfl
  have hloop : updateLoop i (List.range hs.headers.length) hs.headers =
      hs.headers.map fun h => if h.key = header.key then header else h := by
    refine List.ext_getElem? fun n => ?_
    rw [updateLoop_getElem? _ hi, List.getElem?_map]
    cases hn : hs.headers[n]? with
    | none => rfl
    | some h =>
      have hmem : n ∈ List.range hs.headers.length := List.mem_range.mpr (List.getElem?_eq_some_iff.mp hn).1
      simp only [Option.map_some, hmem, true_and]
  simp only [updateRef, hi, update, if_neg hmapped, hloop]

/-- A call with a steady argument is the edit with a copy of it. -/
theorem callRef_steady {hs : THttpHeaders} (hc : hs.Consistent) {m : Memory} {c : Call} (h : hs.Steady m c) :
    ∃ e, c.edit hs = some e ∧ hs.callRef m c = some (hs.edit e) := by
  cases c with
  | append header =>
    cases header with
    | own header => exact ⟨.append header, rfl, rfl⟩
    | element i =>
      obtain ⟨hi, hmoves⟩ := h
      have hheader : hs.headers[i]? = some (hs.headers[i]) := List.getElem?_eq_getElem hi
      refine ⟨.append (hs.headers[i]), by rw [Call.edit, HeaderRef.get, hheader]; rfl, ?_⟩
      rw [callRef, appendRef, hmoves, if_neg Bool.false_ne_true, hheader]
      rfl
  | update header =>
    cases header with
    | own header => exact ⟨.update header, rfl, rfl⟩
    | element i =>
      have hheader : hs.headers[i]? = some (hs.headers[i]) := List.getElem?_eq_getElem h
      exact ⟨.update (hs.headers[i]), by rw [Call.edit, HeaderRef.get, hheader]; rfl, updateRef_element hc m hheader⟩
  | remove key =>
    obtain ⟨key, hget, hremove⟩ := removeRef_steady h
    exact ⟨.remove key, by rw [Call.edit, hget]; rfl, hremove⟩

/-- Run lemma. -/
theorem consistent_reachable {hs : THttpHeaders}
    (h : (editing.restrict fun hs c => hs.Steady c.2 c.1).Reachable hs) : hs.Consistent := by
  refine LTS.Inductive.reachable (I := Consistent) ⟨?_, ?_⟩ hs h
  · rintro hs ⟨headers, rfl⟩
    exact make_consistent headers
  · rintro hs ⟨c, m⟩ hs' hc ⟨hsteady, hstep⟩
    obtain ⟨e, -, hcall⟩ := callRef_steady hc hsteady
    obtain rfl := Option.some.inj (hcall.symm.trans hstep)
    exact edit_consistent hc e

/-- **What a header list represents.** For all headers and all calls that edit them, as
long as what their arguments refer to stays as it is while they read it: the map and the
list agree, and one more such call does what it is for. -/
theorem edits_represents {hs : THttpHeaders} (h : (editing.restrict fun hs c => hs.Steady c.2 c.1).Reachable hs) :
    hs.Represents ∧ ∀ c m, hs.Steady m c → ∃ e hs', c.edit hs = some e ∧ hs.callRef m c = some hs' ∧
      e.Does hs.headers hs'.headers := by
  have hc := consistent_reachable h
  refine ⟨hc.represents, fun c m hsteady => ?_⟩
  obtain ⟨e, he, hcall⟩ := callRef_steady hc hsteady
  exact ⟨e, _, he, hcall, edit_does hc e⟩

/-- Two headers with the key `A`, and one with another key between them. -/
def twice : List THttpHeader := [⟨ascii "A", ascii "1"⟩, ⟨ascii "B", ascii "2"⟩, ⟨ascii "A", ascii "3"⟩]

/-- The first one is written over the last one, `B` is removed, and what is then the
first one is appended. -/
theorem edits_represents_twice : ∃ hs : THttpHeaders, hs.Represents ∧
    hs.headers = [⟨ascii "A", ascii "1"⟩, ⟨ascii "A", ascii "1"⟩] ∧ hs.values (ascii "B") = none ∧
    ∃ hs', hs.callRef ⟨false, []⟩ (.append (.element 0)) = some hs' ∧
      hs'.headers = hs.headers ++ [⟨ascii "A", ascii "1"⟩] := by
  have hinit : (editing.restrict fun hs c => hs.Steady c.2 c.1).Reachable (make twice) := .of_init ⟨twice, rfl⟩
  obtain ⟨hs, hupdate, hheaders⟩ : ∃ hs, (make twice).callRef ⟨true, []⟩ (.update (.element 0)) = some hs ∧
      hs.headers = [⟨ascii "A", ascii "1"⟩, ⟨ascii "B", ascii "2"⟩, ⟨ascii "A", ascii "1"⟩] :=
    ⟨_, rfl, by decide⟩
  have hfirst : (editing.restrict fun hs c => hs.Steady c.2 c.1).step (make twice)
      (.update (.element 0), ⟨true, []⟩) hs := ⟨(by decide : 0 < twice.length), hupdate⟩
  have hsecond : (editing.restrict fun hs c => hs.Steady c.2 c.1).step hs (.remove (.own (ascii "B")), ⟨true, []⟩)
      (hs.remove (ascii "B")) := ⟨trivial, removeRef_own _ _ _⟩
  have hremoved : (hs.remove (ascii "B")).headers = [⟨ascii "A", ascii "1"⟩, ⟨ascii "A", ascii "1"⟩] := by
    simp only [remove, hheaders]
    decide
  have hgone : (hs.remove (ascii "B")).values (ascii "B") = none := by simp [remove]
  obtain ⟨hrep, hnext⟩ := edits_represents ((hinit.next hfirst).next hsecond)
  have hsteady : (hs.remove (ascii "B")).Steady ⟨false, []⟩ (.append (.element 0)) :=
    ⟨by rw [hremoved]; decide, rfl⟩
  obtain ⟨e, hs', he, hcall, hdoes⟩ := hnext (.append (.element 0)) ⟨false, []⟩ hsteady
  rw [Call.edit, HeaderRef.get, hremoved] at he
  obtain rfl := Option.some.inj he
  exact ⟨hs.remove (ascii "B"), hrep, hremoved, hgone, hs', hcall, hdoes⟩

/-- Of `A`, `B` and `A` again, the first key is given to `Remove`: `B` moves to where it
stands, and the second `A` is kept. And a header is given to an `Append` for which the
list moves. -/
theorem own_key_lost :
    (∃ hs, (make twice).callRef ⟨false, []⟩ (.remove (.key 0)) = some hs ∧
      hs.headers = [⟨ascii "B", ascii "2"⟩, ⟨ascii "A", ascii "3"⟩] ∧ hs.find (ascii "A") = none) ∧
    (make twice).callRef ⟨true, []⟩ (.append (.element 0)) = none ∧
    ¬ ∀ hs, editing.Reachable hs → hs.Represents := by
  obtain ⟨hs, hcall, hheaders, hvalues⟩ : ∃ hs, (make twice).callRef ⟨false, []⟩ (.remove (.key 0)) = some hs ∧
      hs.headers = [⟨ascii "B", ascii "2"⟩, ⟨ascii "A", ascii "3"⟩] ∧ hs.find (ascii "A") = none :=
    ⟨_, rfl, by decide, by decide⟩
  refine ⟨⟨hs, hcall, hheaders, hvalues⟩, rfl, fun h => ?_⟩
  have hinit : editing.Reachable (make twice) := .of_init ⟨twice, rfl⟩
  have hstep : editing.step (make twice) (.remove (.key 0), ⟨false, []⟩) hs := hcall
  have hfind := (h hs (hinit.next hstep)).find (ascii "A")
  rw [hvalues, hheaders] at hfind
  exact absurd hfind (by decide)

/-! ## Lookups -/

/-- mirrors individual/lib/HTTP.cpp:109-111 -/
def size (hs : THttpHeaders) : Nat := hs.headers.length

/-- `operator[](i)`, which is undefined behind the last header.
mirrors individual/lib/HTTP.cpp:113-115 -/
def atIndex (hs : THttpHeaders) (i : Nat) : Option THttpHeader := hs.headers[i]?

/-- `operator[](key)`: that of `std::map` inserts a key that is not there, with
an empty value.
mirrors individual/lib/HTTP.cpp:117-119 -/
def atKey (hs : THttpHeaders) (key : Bytes) : Bytes × THttpHeaders :=
  match hs.values key with
  | some value => (value, hs)
  | none => ([], { hs with values := Function.update hs.values key (some []) })

/-- The public operations, with arguments of the caller's. -/
inductive Op where
  | edit (e : Edit)
  | find (key : Bytes)
  | atIndex (i : Nat)
  | atKey (key : Bytes)
  | size
  | serialize
  deriving DecidableEq, Repr

/-- What an operation returns. -/
inductive Answer where
  | done
  | header (h : Option THttpHeader)
  | value (s : Bytes)
  | number (n : Nat)
  deriving DecidableEq, Repr

def call (hs : THttpHeaders) : Op → Answer × THttpHeaders
  | .edit e => (.done, hs.edit e)
  | .find key => (.header (hs.find key), hs)
  | .atIndex i => (.header (hs.atIndex i), hs)
  | .atKey key => (.value (hs.atKey key).1, (hs.atKey key).2)
  | .size => (.number hs.size, hs)
  | .serialize => (.value hs.serialize, hs)

/-- The object behind some operations, and what the next ones return. -/
def behind (hs : THttpHeaders) (ops : List Op) : THttpHeaders := ops.foldl (fun hs op => (hs.call op).2) hs

def answers : THttpHeaders → List Op → List Answer
  | _, [] => []
  | hs, op :: ops => (hs.call op).1 :: answers (hs.call op).2 ops

/-- A call of a const method, with an index that is there. -/
def Lookup (hs : THttpHeaders) : Op → Prop
  | .edit _ => False
  | .atIndex i => i < hs.size
  | _ => True

/-- **Which lookups are pure.** For all headers and any operations on them, a
lookup at any point changes no result behind it, exactly when it is not
`operator[](key)` with a key that is not in `Values_`. -/
theorem lookup_pure_iff (headers : List THttpHeader) (before : List Op) (l : Op)
    (hl : Lookup (behind (make headers) before) l) :
    (∀ after, answers (behind (make headers) (before ++ [l])) after =
        answers (behind (make headers) before) after) ↔
      ∀ key, l = .atKey key → (behind (make headers) before).values key ≠ none := by
  have hlast : behind (make headers) (before ++ [l]) = ((behind (make headers) before).call l).2 :=
    List.foldl_concat ..
  rw [hlast]
  generalize behind (make headers) before = hs at hl
  constructor
  · rintro hpure key rfl hnone
    -- `Find` sees the difference at once
    have hfind := hpure [.find key]
    simp only [answers, call, atKey, hnone, find, Function.update_self, Option.map_some,
      Option.map_none, List.cons.injEq, Answer.header.injEq, reduceCtorEq, false_and] at hfind
  · intro hkey after
    have hsame : (hs.call l).2 = hs := by
      cases l with
      | edit e => exact hl.elim
      | atKey key =>
        obtain ⟨value, hvalue⟩ := Option.ne_none_iff_exists'.mp (hkey key rfl)
        simp only [call, atKey, hvalue]
      | _ => rfl
    rw [hsame]

theorem lookup_pure_iff_host :
    (make [⟨ascii "Host", ascii "a"⟩]).values (ascii "Host") ≠ none ∧
    ∀ after, answers (behind (make [⟨ascii "Host", ascii "a"⟩]) [.atKey (ascii "Host")]) after =
      answers (make [⟨ascii "Host", ascii "a"⟩]) after := by
  have hthere : (make [⟨ascii "Host", ascii "a"⟩]).values (ascii "Host") ≠ none := by decide
  refine ⟨hthere, (lookup_pure_iff [⟨ascii "Host", ascii "a"⟩] [] (.atKey (ascii "Host")) trivial).mpr ?_⟩
  intro key hkey
  cases hkey
  exact hthere

/-- A key that is looked up, and then updated: the header is not there. -/
theorem looked_up_lost : ¬ ∀ headers before l after, Lookup (behind (make headers) before) l →
    answers (behind (make headers) (before ++ [l])) after =
      answers (behind (make headers) before) after := by
  intro h
  have hlost := h [] [] (.atKey (ascii "Host")) [.edit (.update ⟨ascii "Host", ascii "a"⟩), .serialize] trivial
  exact absurd hlost (by decide)

end THttpHeaders
end NetworksLab.L3.Http
