import LuaEmbed.Machine.Operation
import LuaEmbed.Proofs.Runs.After
import LuaEmbed.Proofs.Tables.Assignments

/-!
# Chains of handlers

Indexing asks one object after the other.  A table that holds something under the key answers, and
so does a function that handles the event; any other handler is the object that is asked next.  The
handlers may lead anywhere, also back to where they started, and so at most a hundred objects are
asked.  Unless a function is called, reading changes nothing and writing changes one key of one
table, or nothing if it fails.
-/

namespace LuaEmbed

namespace Machine

/-! ## Chains -/

/-- What a table of the machine holds under a key; other values hold nothing. -/
def held (m : Machine) (key : Value) : Value → Value
  | .table r => (m.tables[r]?.getD .empty).get key
  | _ => .nil

/-- The fault that a text is in the function that is running. -/
def faultHere (m : Machine) (text : String) : Fault :=
  .raised (.string (Report.positioned ((m.frames[0]?.map Frame.position).getD "") text))

variable (m : Machine) (event : String) (key : Value)

/-- The object that is asked next is the handler of one that holds nothing, if it is no function. -/
structure HandsOn (o o' : Value) : Prop where
  held : m.held key o = .nil
  handler : Metatable.fieldOf m o event = o'
  ne_nil : o' ≠ .nil
  kind_ne : o'.kind ≠ .function

/-- The objects of a chain that starts with one of them, each with the number of those before it. -/
inductive Visits (obj : Value) : Nat → Value → Prop where
  | first : Visits obj 0 obj
  | next {i : Nat} {o o' : Value} :
      Visits obj i o → m.HandsOn event key o o' → Visits obj (i + 1) o'

/-- The chain ends with an object that holds something, or whose handler is missing or a
function. -/
def EndsWith (o : Value) : Prop :=
  m.held key o ≠ .nil ∨ Metatable.fieldOf m o event = .nil ∨
    ∃ f, Metatable.fieldOf m o event = .function f

variable {m event key} {obj o : Value} {i n : Nat}

theorem endsWith_or_handsOn (o : Value) :
    m.EndsWith event key o ∨ ∃ o', m.HandsOn event key o o' := by
  by_cases hheld : m.held key o = .nil
  · cases hhandler : Metatable.fieldOf m o event with
    | nil => exact .inl (.inr (.inl hhandler))
    | function f => exact .inl (.inr (.inr ⟨f, hhandler⟩))
    | _ => exact .inr ⟨_, hheld, hhandler, by simp, by simp [Value.kind]⟩
  · exact .inl (.inl hheld)

/-- A chain either ends before a place or reaches it. -/
theorem visits_or_endsWith (obj : Value) (n : Nat) : (∃ o, m.Visits event key obj n o) ∨
    ∃ i < n, ∃ o, m.Visits event key obj i o ∧ m.EndsWith event key o := by
  induction n with
  | zero => exact .inl ⟨obj, .first⟩
  | succ n ih =>
      rcases ih with ⟨o, ho⟩ | ⟨i, hi, hend⟩
      · have hstep : m.EndsWith event key o ∨ ∃ o', m.HandsOn event key o o' :=
          endsWith_or_handsOn o
        rcases hstep with hend | ⟨o', ho'⟩
        · exact .inr ⟨n, Nat.lt_succ_self n, o, ho, hend⟩
        · exact .inl ⟨o', ho.next ho'⟩
      · exact .inr ⟨i, Nat.lt_succ_of_lt hi, hend⟩

end Machine

theorem Report.location_apply (level : Nat) (s : Session) : Report.location level s =
    .ok ((s.machine.frames[level]?.map Frame.position).getD "") s := by
  rw [Report.location, Run.machine]
  cases s.machine.frames[level]? <;> rfl

theorem Report.here_apply {α : Type} (p : Problem) (s : Session) :
    (Report.here p : Run α) s = .error (.fault (s.machine.faultHere p.text)) s :=
  Run.bind_of_ok (Report.location_apply 0 s)

/-! ## Walks along a chain -/

section Walk

variable {α : Type}

/-- What is done with the handler of an object that holds nothing. -/
def dispatch (bare ask : Ref → Run α) (next : Value → Run α) (o handler : Value) : Run α :=
  match handler, o with
  | .nil, .table r => bare r
  | .nil, o => Report.here (.index none o.kind)
  | .function f, _ => ask f
  | handler, _ => next handler

/-- A run that asks at most the given number of objects of a chain: what it does with one that holds
something, with a table without handler and with a function, and how it fails at the end. -/
structure Walks (s : Session) (event : String) (key : Value) (walk : Nat → Value → Run α)
    (found : Value → Run α) (bare : Ref → Run α) (ask : Value → Ref → Run α) (loop : Problem) :
    Prop where
  held {n : Nat} {o : Value} : s.machine.held key o ≠ .nil → walk (n + 1) o s = found o s
  unheld {n : Nat} {o : Value} : s.machine.held key o = .nil → walk (n + 1) o s =
    dispatch bare (ask o) (walk n) o (Metatable.fieldOf s.machine o event) s
  loop (o : Value) : walk 0 o s = Report.here loop s

namespace Walks

variable {s : Session} {event : String} {key obj o o' : Value} {walk : Nat → Value → Run α}
  {found : Value → Run α} {bare : Ref → Run α} {ask : Value → Ref → Run α} {loop : Problem}
  {i n : Nat} {f r : Ref}

variable (h : Walks s event key walk found bare ask loop)

include h

theorem handsOn (ho : s.machine.HandsOn event key o o') : walk (n + 1) o s = walk n o' s := by
  rw [h.unheld ho.held, ho.handler]
  have hnil := ho.ne_nil
  have hkind := ho.kind_ne
  cases o' with
  | nil => exact (hnil rfl).elim
  | function f => exact (hkind rfl).elim
  | _ => rfl

/-- The walk comes to every object of the chain, as long as it may ask more of them. -/
theorem visits (ho : s.machine.Visits event key obj i o) (n : Nat) :
    walk (n + i) obj s = walk n o s := by
  induction ho generalizing n with
  | first => rfl
  | next _ hnext ih => rw [Nat.add_succ, ← Nat.succ_add, ih, h.handsOn hnext]

theorem visits_lt (hi : i < n) (ho : s.machine.Visits event key obj i o) :
    walk n obj s = walk (n - i - 1 + 1) o s := by
  rw [← h.visits ho]
  congr 1
  omega

section Ends

variable (hi : i < n) (ho : s.machine.Visits event key obj i o)

include hi ho

theorem eq_found (hheld : s.machine.held key o ≠ .nil) : walk n obj s = found o s :=
  (h.visits_lt hi ho).trans (h.held hheld)

theorem eq_bare (hheld : s.machine.held key o = .nil)
    (hhandler : Metatable.fieldOf s.machine o event = .nil) (htable : o = .table r) :
    walk n obj s = bare r s := by
  rw [h.visits_lt hi ho, h.unheld hheld, hhandler, htable]
  rfl

theorem eq_ask (hheld : s.machine.held key o = .nil)
    (hhandler : Metatable.fieldOf s.machine o event = .function f) :
    walk n obj s = ask o f s := by
  rw [h.visits_lt hi ho, h.unheld hheld, hhandler]
  rfl

theorem eq_index (hhandler : Metatable.fieldOf s.machine o event = .nil) (hkind : o.kind ≠ .table) :
    walk n obj s = Report.here (.index none o.kind) s := by
  rw [h.visits_lt hi ho]
  cases o with
  | table r => exact (hkind rfl).elim
  | _ =>
      rw [h.unheld rfl, hhandler]
      rfl

end Ends

theorem eq_loop (ho : s.machine.Visits event key obj n o) :
    walk n obj s = Report.here loop s := by
  have heq := h.visits ho 0
  rw [Nat.zero_add] at heq
  exact heq.trans (h.loop o)

end Walks

end Walk

namespace Operation

variable (call : Caller) (key v : Value) (s : Session)

/-! ## Reading -/

theorem walks_indexWithin : Walks s "__index" key (indexWithin call key)
    (fun o ↦ return s.machine.held key o) (fun _ ↦ return .nil)
    (fun o f ↦ first call (.function f) [o, key]) .loopInGet where
  held {n o} h := by
    cases o with
    | table r =>
        have hget : Heap.get r key s = .ok (s.machine.held key (.table r)) s := rfl
        refine (Run.bind_of_ok hget).trans ?_
        generalize s.machine.held key (.table r) = found at h
        cases found with
        | nil => exact (h rfl).elim
        | _ => rfl
    | _ => exact (h rfl).elim
  unheld {n o} h := by
    have hfield : Metatable.field o "__index" s =
        .ok (Metatable.fieldOf s.machine o "__index") s := rfl
    generalize Metatable.fieldOf s.machine o "__index" = handler at hfield
    cases o with
    | table r =>
        have hget : Heap.get r key s = .ok .nil s := congrArg (EStateM.Result.ok · s) h
        refine (Run.bind_of_ok hget).trans ((Run.bind_of_ok hfield).trans ?_)
        cases handler <;> rfl
    | _ =>
        have hnone : (pure .nil : Run Value) s = .ok .nil s := rfl
        refine (Run.bind_of_ok hnone).trans ((Run.bind_of_ok hfield).trans ?_)
        cases handler <;> rfl
  loop _ := rfl

/-- Indexing asks the objects of the chain from `obj` on, of which there may be a hundred.  The
first that holds a value under the key, that is a table without handler, that has no handler without
being a table, or whose handler is a function, says what happens: the value is the result, the
result is `nil`, it is a fault, or the function is called with the object and the key, and its first
result is the result.  If all hundred of them hand on to another object, that is a fault.  One of
the two is the case, and unless a function is called, the session stays as it is. -/
theorem index_asks_handlers (call : Caller) (obj key : Value) (s : Session) :
    let m := s.machine
    let visits := m.Visits "__index" key obj
    let handler (o : Value) := Metatable.fieldOf m o "__index"
    let result := index call obj key s
    (∀ i < 100, ∀ o, visits i o →
      (m.held key o ≠ .nil → result = .ok (m.held key o) s) ∧
      (m.held key o = .nil → handler o = .nil → o.kind = .table → result = .ok .nil s) ∧
      (handler o = .nil → o.kind ≠ .table → result =
        .error (.fault (m.faultHere ("attempt to index a " ++ o.kind.name ++ " value"))) s) ∧
      (∀ f, m.held key o = .nil → handler o = .function f → result =
        (do return (← call (.function f) [o, key] none).headD .nil : Run Value) s)) ∧
    (∀ o, visits 100 o → result = .error (.fault (m.faultHere "loop in gettable")) s) ∧
    ((∃ o, visits 100 o) ∨ ∃ i < 100, ∃ o, visits i o ∧ m.EndsWith "__index" key o) := by
  intro m visits handler result
  have hwalks := walks_indexWithin call key s
  refine ⟨fun i hi o ho ↦ ⟨hwalks.eq_found hi ho, fun hheld hhandler hkind ↦ ?_,
    fun hhandler hkind ↦ ?_, fun f ↦ hwalks.eq_ask hi ho⟩, fun o ho ↦ ?_,
    m.visits_or_endsWith obj 100⟩
  · cases o with
    | table r => exact hwalks.eq_bare hi ho hheld hhandler rfl
    | _ => exact nomatch hkind
  · exact (hwalks.eq_index hi ho hhandler hkind).trans (Report.here_apply ..)
  · exact (hwalks.eq_loop ho).trans (Report.here_apply ..)

/-- A table that is its own metatable and its own handler. -/
theorem index_asks_handlers_cycle (call : Caller) :
    let t := { Table.empty.setStr "__index" (.table 0) with metatable := some 0 }
    let s : Session := ⟨{ Machine.initial 200 with tables := #[t] }, World.initial⟩
    index call (.table 0) (.string "__index") s = .ok (.table 0) s ∧
      index call (.table 0) (.string "x") s =
        .error (.fault (.raised (.string "loop in gettable"))) s := by
  intro t s
  have hget (key : String) : s.machine.held (.string key) (.table 0) =
      if "__index" = key then .table 0 else .nil := by
    refine (Table.getStr_setStr .empty "__index" (.table 0) key).trans ?_
    rw [Table.getStr_empty]
  have hvisits (i : Nat) : s.machine.Visits "__index" (.string "x") (.table 0) i (.table 0) := by
    induction i with
    | zero => exact .first
    | succ i ih => exact ih.next ⟨hget "x", hget "__index", nofun, nofun⟩
  have hindex := index_asks_handlers call (.table 0)
  refine ⟨?_, (hindex (.string "x") s).2.1 _ (hvisits 100)⟩
  have hfound := ((hindex (.string "__index") s).1 0 (by decide) _ .first).1
  rw [hget "__index"] at hfound
  exact hfound nofun

/-! ## Writing -/

theorem walks_setIndexWithin : Walks s "__newindex" key (setIndexWithin call key v)
    (fun | .table r => store r key v | _ => pure ()) (store · key v)
    (fun o f ↦ do let _ ← call (.function f) [o, key, v] none) .loopInSet where
  held {n o} h := by
    cases o with
    | table r =>
        have hget : Heap.get r key s = .ok (s.machine.held key (.table r)) s := rfl
        refine (Run.bind_of_ok hget).trans ?_
        generalize s.machine.held key (.table r) = found at h
        cases found with
        | nil => exact (h rfl).elim
        | _ => rfl
    | _ => exact (h rfl).elim
  unheld {n o} h := by
    have hfield : Metatable.field o "__newindex" s =
        .ok (Metatable.fieldOf s.machine o "__newindex") s := rfl
    generalize Metatable.fieldOf s.machine o "__newindex" = handler at hfield
    cases o with
    | table r =>
        have hget : Heap.get r key s = .ok .nil s := congrArg (EStateM.Result.ok · s) h
        have habsent : (pure !Value.nil.isNil : Run Bool) s = .ok false s := rfl
        refine (Run.bind_of_ok hget).trans ((Run.bind_of_ok habsent).trans ?_)
        refine (Run.bind_of_ok hfield).trans ?_
        cases handler <;> rfl
    | _ =>
        have hnone : (pure false : Run Bool) s = .ok false s := rfl
        refine (Run.bind_of_ok hnone).trans ((Run.bind_of_ok hfield).trans ?_)
        cases handler <;> rfl
  loop _ := rfl

/-- The session has another value under one key of one table, and is the same otherwise. -/
structure Stores (s : Session) (r : Ref) (key v : Value) (s' : Session) : Prop where
  table {t : Table} : s.machine.tables[r]? = some t →
    ∃ t', s'.machine.tables[r]? = some t' ∧ t.Rebound key v t'
  others {r' : Ref} : r' ≠ r → s'.machine.tables[r']? = s.machine.tables[r']?
  rest : s' = { s with machine := { s.machine with tables := s'.machine.tables } }

variable {key}

theorem store_of_isKey (hkey : key.isKey = true) (r : Ref) :
    ∃ s', store r key v s = .ok () s' ∧ Stores s r key v s' := by
  obtain ⟨k, hk⟩ := Key.ofValue_of_isKey hkey
  have hset : Heap.set r key v s = .ok (.ok ()) _ :=
    (congrFun (Table.heapSet_of_ofValue hk r v) s).trans (Run.bind_of_ok rfl)
  refine ⟨_, Run.bind_of_ok hset, fun {t} ht ↦ ?_, fun {r'} hne ↦ ?_, rfl⟩
  · refine ⟨t.setKey key k hk v, ?_, .setKey hk t v⟩
    rw [Array.getElem?_modify, if_pos rfl, ht]
    rfl
  · rw [Array.getElem?_modify, if_neg hne.symm]

theorem store_of_error {fault : KeyFault} (h : Key.ofValue key = .error fault) (r : Ref) :
    store r key v s = .error (.fault (s.machine.faultHere (Problem.key fault).text)) s := by
  have hset : Heap.set r key v s = .ok (.error fault) s :=
    congrFun (Table.heapSet_of_error h r v) s
  exact (Run.bind_of_ok hset).trans (Report.here_apply ..)

variable (key)

/-- An assignment to a field asks the objects of the chain from `obj` on, of which there may be a
hundred.  The first of them that is a table which holds a value under the key or has no handler is
given the value under the key, and nothing else in the session changes; a key that is `nil` or NaN
is a fault there.  The first whose handler is a function has that called once, with the object, the
key and the value, and nothing is done besides.  An object without handler that is no table is a
fault, and so is a chain of a hundred objects that all hand on to another.  One of these is the
case, and what is a fault leaves the session as it is. -/
theorem setIndex_asks_handlers (call : Caller) (obj key v : Value) (s : Session) :
    let m := s.machine
    let visits := m.Visits "__newindex" key obj
    let handler (o : Value) := Metatable.fieldOf m o "__newindex"
    let result := setIndex call obj key v s
    (∀ i < 100, ∀ o, visits i o →
      (∀ r, o = .table r → m.held key o ≠ .nil ∨ handler o = .nil →
        (key.isKey = true → ∃ s', result = .ok () s' ∧ Stores s r key v s') ∧
        (key = .nil → result = .error (.fault (m.faultHere "table index is nil")) s) ∧
        ∀ x : Float, key = .number x → x.isNaN = true →
          result = .error (.fault (m.faultHere "table index is NaN")) s) ∧
      (handler o = .nil → o.kind ≠ .table → result =
        .error (.fault (m.faultHere ("attempt to index a " ++ o.kind.name ++ " value"))) s) ∧
      (∀ f, m.held key o = .nil → handler o = .function f → result =
        (do let _ ← call (.function f) [o, key, v] none : Run Unit) s)) ∧
    (∀ o, visits 100 o → result = .error (.fault (m.faultHere "loop in settable")) s) ∧
    ((∃ o, visits 100 o) ∨ ∃ i < 100, ∃ o, visits i o ∧ m.EndsWith "__newindex" key o) := by
  intro m visits handler result
  have hwalks := walks_setIndexWithin call key v s
  refine ⟨fun i hi o ho ↦ ⟨fun r htable hstores ↦ ?_, fun hhandler hkind ↦ ?_,
    fun f ↦ hwalks.eq_ask hi ho⟩, fun o ho ↦ ?_, m.visits_or_endsWith obj 100⟩
  · have hresult : result = store r key v s := by
      by_cases hheld : m.held key o = .nil
      · exact hwalks.eq_bare hi ho hheld (hstores.resolve_left fun h ↦ h hheld) htable
      · have hfound := hwalks.eq_found hi ho hheld
        rw [htable] at hfound
        exact hfound
    rw [hresult]
    refine ⟨fun hkey ↦ store_of_isKey v s hkey r, fun hkey ↦ ?_, fun x hkey hnan ↦ ?_⟩
    · have hfault : Key.ofValue key = .error .nil := hkey ▸ rfl
      exact store_of_error v s hfault r
    · have hfault : Key.ofValue key = .error .nan := hkey ▸ if_pos hnan
      exact store_of_error v s hfault r
  · exact (hwalks.eq_index hi ho hhandler hkind).trans (Report.here_apply ..)
  · exact (hwalks.eq_loop ho).trans (Report.here_apply ..)

/-- A table that hands every key on to another. -/
theorem setIndex_asks_handlers_next (call : Caller) (v : Value) :
    let tables : Array Table := #[{ Table.empty with metatable := some 1 },
      Table.empty.setStr "__newindex" (.table 2), .empty]
    let s : Session := ⟨{ Machine.initial 200 with tables }, World.initial⟩
    (∃ s', setIndex call (.table 0) (.string "x") v s = .ok () s' ∧
        Stores s 2 (.string "x") v s') ∧
      setIndex call (.table 0) .nil v s =
        .error (.fault (.raised (.string "table index is nil"))) s := by
  intro tables s
  have hheld (key : Value) (r : Ref) (hr : r ≠ 1) : s.machine.held key (.table r) = .nil := by
    have htable : s.machine.held key (.table r) = Table.empty.get key := by
      match r, hr with
      | 0, _ | 2, _ => rfl
      | r + 3, _ => simp [Machine.held, s, tables]
    rw [htable]
    exact Table.Recorded.empty.get key
  have hhandler : Metatable.fieldOf s.machine (.table 0) "__newindex" = .table 2 :=
    (Table.getStr_setStr .empty "__newindex" (.table 2) "__newindex").trans (if_pos rfl)
  have hvisits (key : Value) : s.machine.Visits "__newindex" key (.table 0) 1 (.table 2) :=
    .next .first ⟨hheld key 0 (by decide), hhandler, nofun, nofun⟩
  have hstores (key : Value) := ((setIndex_asks_handlers call (.table 0) key v s).1 1 (by decide) _
    (hvisits key)).1 2 rfl (.inr rfl)
  exact ⟨(hstores (.string "x")).1 rfl, (hstores .nil).2.1 rfl⟩

end Operation

end LuaEmbed
