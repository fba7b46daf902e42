import Monty.Heap.Basic

/-!
# The payloads of the heap

`HeapData` lists the kinds of object the interpreter allocates, each with the fields that hold heap
references. The heap walks a payload in two places that have to report the same references: the
collector reads them (`HeapData.forEachChildId`), and freeing an entry pushes them on the work stack
(`HeapData.pyDecRefIds`). They are written out separately, as in the source, and
`HeapData.pyDecRefIds_perm` is the proof that they agree.

They agree for two different reasons. The sequence types and a `dict` carry a flag that says
whether they hold references at all, and both walkers skip the items when it is unset. The classes
and instances own a dictionary whose entries the first walker reads without looking at the flag:
there the two agree because the flag of a `Dict` is never unset while an entry holds a reference,
and because these dictionaries have no default factory. Both facts are part of the types
(`Dict.flag`, `AttrDict.plain`).
-/

namespace Monty

/-- A value: a counted reference to a heap entry, or one of the kinds stored inline. -/
inductive Value
  | ref (id : HeapId)
  | immediate
  deriving DecidableEq, Repr

/-- The reference a value holds, if any (`Value::py_dec_ref_ids`). -/
def Value.refIds : Value → List HeapId
  | .ref id => [id]
  | .immediate => []

/-- The references held by some values, in order. -/
def refs (values : List Value) : List HeapId := values.flatMap Value.refIds

/-- Items with the flag that says whether any of them may be a reference. -/
structure Items where
  containsRefs : Bool
  items : List Value

def Items.refIds (xs : Items) : List HeapId := if xs.containsRefs then refs xs.items else []

/-- A dictionary: the factory of a `defaultdict`, the flag, and the live entries in order. -/
structure Dict where
  defaultFactory : Option Value
  containsRefs : Bool
  entries : List (Value × Value)
  /-- The flag is set as soon as an entry holds a reference. -/
  flag : containsRefs = false → ∀ kv ∈ entries, kv.1.refIds = [] ∧ kv.2.refIds = []

/-- The references in the entries, key before value. -/
def Dict.entryRefs (d : Dict) : List HeapId :=
  d.entries.flatMap fun kv => kv.1.refIds ++ kv.2.refIds

/-- The factory first, then the entries unless the flag rules them out. -/
def Dict.refIds (d : Dict) : List HeapId :=
  refs d.defaultFactory.toList ++ if d.containsRefs then d.entryRefs else []

theorem Dict.entryRefs_of_flag {d : Dict} (h : d.containsRefs = false) : d.entryRefs = [] := by
  rw [entryRefs, List.flatMap_eq_nil_iff]
  intro kv hkv
  obtain ⟨hk, hv⟩ := d.flag h kv hkv
  rw [hk, hv, List.append_nil]

/-- The dictionary of a class, an instance or a module: never a `defaultdict`. -/
structure AttrDict extends Dict where
  plain : defaultFactory = none

/-- Reading the entries without the flag gives the same references. -/
theorem AttrDict.refIds_eq (d : AttrDict) : d.refIds = d.entryRefs := by
  rw [Dict.refIds, d.plain]
  cases h : d.containsRefs with
  | false => rw [Dict.entryRefs_of_flag h]; rfl
  | true => rfl

/-! ## The kinds of payload -/

/-- Payloads that hold no references. -/
inductive LeafKind
  | str | bytes | range | slice | dataclassParams | rangeIterator | longInt | complex | path
  | rePattern | date | timeDelta | timeZone | random | hashObject | decimal | decimalContext
  deriving DecidableEq, Repr

/-- Where `itertools.chain` takes its iterables from. -/
inductive ChainSources
  | args (iterables : List Value)
  | outer (iterator : Value)

/-- The iterators of `itertools`. -/
inductive ItertoolsIter
  | count (current step : Value)
  | repeatObject (object : Value)
  | pairwise (source previous : Option Value)
  | compress (data selectors : Value)
  | islice (source : Option Value)
  | chain (sources : ChainSources) (current : Option Value)
  | cycle (source : Option Value) (saved : List Value)
  | takeWhile (predicate source : Option Value)
  | dropWhile (predicate source : Value)
  | filterFalse (predicate source : Value)
  | starMap (function source : Value)
  | accumulate (source func : Value) (total : Option Value)
  | batched (source : Option Value)
  | zipLongest (sources : List (Option Value)) (fillvalue : Value)
  | combinations (pool : List Value)
  | permutations (pool : List Value)
  | product (pools : List (List Value))
  | groupBy (source keyfunc : Value) (targetKey currentKey currentValue : Option Value)
  | grouper (parent targetKey : Value)
  | tee (block : Value)
  | teeBlock (source : Value) (next : Option Value) (items : List Value)

/-- The objects of the `csv` module. -/
inductive CsvObject
  | reader (source : Value)
  | writer (target write : Value)
  | dictReader (reader : Value) (fieldnames : Option Value) (restkey restval dialect : Value)
  | dictWriter (writer fieldnames restval extrasaction : Value)
  | dialect

/-- The objects of a directory scan. -/
inductive DirScan
  | entry
  | scandir
  | walk (onerror : Value) (pendingDirnames : Option HeapId)

/-- Who is told when a future resolves. -/
inductive Awaiter
  | task
  | gatherSlot (gather : HeapId)

/-- The states of a gather. -/
inductive GatherState
  | pending
  | awaited (awaiter : Awaiter) (results : List (Option Value))
  | completed (value : Value)
  | failed

/-- The states of an external future. -/
inductive ExternalFutureState
  | pending (awaiter : Option Awaiter)
  | resolved (value : Value)
  | failed

/-- The values a generated `__init__` captures for a field. -/
inductive FieldInit
  | unsupplied
  | default (value : Value)
  | factory (value : Value)

/-- The kinds of heap payload. -/
inductive HeapData
  | leaf (kind : LeafKind)
  | list (items : Items)
  | deque (items : Items)
  | tuple (items : Items)
  | namedTuple (classId : Option HeapId) (items : Items)
  | namedTupleClass (containsRefs : Bool) (defaults : List Value) (moduleName : Value)
  | dict (d : Dict)
  | dictKeysView (dictId : HeapId)
  | dictItemsView (dictId : HeapId)
  | dictValuesView (dictId : HeapId)
  | set (values : List Value)
  | frozenSet (values : List Value)
  | closure (cells : List HeapId) (defaults : List Value) (globals : Option HeapId)
  | functionDefaults (defaults : List Value) (globals : Option HeapId)
  | cell (value : Value)
  | hostClass (classId : HeapId) (attrs : AttrDict)
  | hostClassType (typeId : Nat) (attrs : AttrDict)
  | classObject (uuid : Option Nat) (attrs : AttrDict)
  | instanceObject (uuid : Option Nat) (classId : HeapId) (attrs : AttrDict)
  | boundMethod (receiver func : Value)
  | dataclassField (annotationValue default defaultFactory : Option Value)
  /-- A generated `__init__` has one `FieldInit` per field; the other methods have none. -/
  | dataclassMethod (fields : List FieldInit)
  | listIterator (source : HeapId)
  | dequeIterator (source : HeapId)
  | tupleIterator (source : HeapId)
  | stringIterator (source : Option HeapId)
  | bytesIterator (source : Option HeapId)
  | dictKeyIterator (source : HeapId)
  | dictItemIterator (source : HeapId)
  | dictValueIterator (source : HeapId)
  | setIterator (source : HeapId)
  | callableIterator (callable sentinel : Value)
  | dirScan (scan : DirScan)
  | itertools (iter : ItertoolsIter)
  | csv (object : CsvObject)
  | partialObject (func : Value) (args : List Value) (keywords : List (Value × Value))
  | genericAlias (args : Value)
  | union (args : Value)
  | forwardRef (arg moduleName owner : Value) (globals : Option HeapId)
  | lruCache (func : Option Value) (cache : List (Value × Value))
  | moduleObject (attrs : AttrDict) (fileNamespace : Option HeapId)
  | coroutine (locals : List Value) (globals : Option HeapId)
  | gatherFuture (items : List HeapId) (state : GatherState)
  | externalFuture (sleepResult : Option Value) (state : ExternalFutureState)
  | dateTime (tzinfo : Option HeapId)
  | time (tzinfo : Option HeapId)
  | openFile (buffer : Option HeapId)
  | reMatch (subject : Value)
  | extFunction (name : String)
  | decimalSignalDict (context : HeapId)
  | decimalContextManager (localContext : HeapId) (saved : Option HeapId)
  | exception (cause context : Option HeapId)

/-! ## The two walkers -/

namespace ItertoolsIter

def forEachChildId : ItertoolsIter → List HeapId
  | count current step => current.refIds ++ step.refIds
  | repeatObject object => object.refIds
  | pairwise source previous => refs source.toList ++ refs previous.toList
  | compress data selectors => data.refIds ++ selectors.refIds
  | islice source => refs source.toList
  | chain (.args iterables) current => refs iterables ++ refs current.toList
  | chain (.outer iterator) current => iterator.refIds ++ refs current.toList
  | cycle source saved => refs source.toList ++ refs saved
  | takeWhile predicate source => refs predicate.toList ++ refs source.toList
  | dropWhile predicate source => predicate.refIds ++ source.refIds
  | filterFalse predicate source => predicate.refIds ++ source.refIds
  | starMap function source => function.refIds ++ source.refIds
  | accumulate source func total => source.refIds ++ func.refIds ++ refs total.toList
  | batched source => refs source.toList
  | zipLongest sources fillvalue => refs (sources.filterMap id) ++ fillvalue.refIds
  | combinations pool => refs pool
  | permutations pool => refs pool
  | product pools => pools.flatMap refs
  | groupBy source keyfunc targetKey currentKey currentValue =>
    refs [source, keyfunc] ++ refs ([targetKey, currentKey, currentValue].filterMap id)
  | grouper parent targetKey => refs [parent, targetKey]
  | tee block => block.refIds
  | teeBlock source next items => refs ([some source, next].filterMap id) ++ refs items

def pyDecRefIds : ItertoolsIter → List HeapId
  | count current step => current.refIds ++ step.refIds
  | repeatObject object => object.refIds
  | pairwise source previous => refs source.toList ++ refs previous.toList
  | compress data selectors => data.refIds ++ selectors.refIds
  | islice source => refs source.toList
  | chain (.args iterables) current => refs iterables ++ refs current.toList
  | chain (.outer iterator) current => iterator.refIds ++ refs current.toList
  | cycle source saved => refs source.toList ++ refs saved
  | takeWhile predicate source => refs predicate.toList ++ refs source.toList
  | dropWhile predicate source => predicate.refIds ++ source.refIds
  | filterFalse predicate source => predicate.refIds ++ source.refIds
  | starMap function source => function.refIds ++ source.refIds
  | accumulate source func total => source.refIds ++ func.refIds ++ refs total.toList
  | batched source => refs source.toList
  | zipLongest sources fillvalue => refs (sources.filterMap id) ++ fillvalue.refIds
  | combinations pool => refs pool
  | permutations pool => refs pool
  | product pools => pools.flatMap refs
  | groupBy source keyfunc targetKey currentKey currentValue =>
    source.refIds ++ keyfunc.refIds ++ refs ([targetKey, currentKey, currentValue].filterMap id)
  | grouper parent targetKey => parent.refIds ++ targetKey.refIds
  | tee block => block.refIds
  | teeBlock source next items => source.refIds ++ refs next.toList ++ refs items

/-- Counting holds numbers only, which are leaves. -/
def isGcTracked : ItertoolsIter → Bool
  | count .. => false
  | _ => true

theorem pyDecRefIds_eq (iter : ItertoolsIter) : iter.pyDecRefIds = iter.forEachChildId := by
  cases iter with
  | chain sources current => cases sources <;> rfl
  | groupBy => simp [pyDecRefIds, forEachChildId, refs]
  | grouper => simp [pyDecRefIds, forEachChildId, refs]
  | teeBlock source next items => cases next <;> simp [pyDecRefIds, forEachChildId, refs]
  | _ => rfl

end ItertoolsIter

namespace CsvObject

def forEachChildId : CsvObject → List HeapId
  | reader source => source.refIds
  | writer target write => refs [target, write]
  | dictReader inner fieldnames restkey restval format =>
    refs ([some inner, fieldnames, some restkey, some restval, some format].filterMap id)
  | dictWriter inner fieldnames restval extrasaction =>
    refs [inner, fieldnames, restval, extrasaction]
  | dialect => []

def pyDecRefIds : CsvObject → List HeapId
  | reader source => source.refIds
  | writer target write => target.refIds ++ write.refIds
  | dictReader inner fieldnames restkey restval format =>
    inner.refIds ++ refs fieldnames.toList ++ restkey.refIds ++ restval.refIds ++ format.refIds
  | dictWriter inner fieldnames restval extrasaction =>
    inner.refIds ++ fieldnames.refIds ++ restval.refIds ++ extrasaction.refIds
  | dialect => []

theorem pyDecRefIds_eq (csv : CsvObject) : csv.pyDecRefIds = csv.forEachChildId := by
  cases csv with
  | dictReader inner fieldnames => cases fieldnames <;> simp [pyDecRefIds, forEachChildId, refs]
  | _ => simp [pyDecRefIds, forEachChildId, refs]

end CsvObject

/-- The reference of a directory walk to its callable and to the list it last yielded. -/
def DirScan.refIds : DirScan → List HeapId
  | .walk onerror pendingDirnames => onerror.refIds ++ pendingDirnames.toList
  | _ => []

/-- The reference an awaiter owns. -/
def Awaiter.refIds : Awaiter → List HeapId
  | .gatherSlot gather => [gather]
  | .task => []

def GatherState.refIds : GatherState → List HeapId
  | .awaited awaiter results => awaiter.refIds ++ refs (results.filterMap id)
  | .completed value => value.refIds
  | .pending | .failed => []

def ExternalFutureState.refIds : ExternalFutureState → List HeapId
  | .resolved value => value.refIds
  | .pending awaiter => awaiter.toList.flatMap Awaiter.refIds
  | .failed => []

def FieldInit.value : FieldInit → Option Value
  | .unsupplied => none
  | .default value => some value
  | .factory value => some value

theorem refs_filterMap_value (fields : List FieldInit) :
    refs (fields.filterMap FieldInit.value) = fields.flatMap fun field => refs
      field.value.toList := by
  induction fields with
  | nil => rfl
  | cons field rest ih =>
    rw [List.flatMap_cons, ← ih, List.filterMap_cons]
    cases field.value <;> simp [refs]

namespace HeapData

/-- The references of a payload, as the collector reads them. -/
def forEachChildId : HeapData → List HeapId
  | leaf _ => []
  | list items => items.refIds
  | deque items => items.refIds
  | tuple items => items.refIds
  -- the class edge does not count towards the flag
  | namedTuple classId items => classId.toList ++ items.refIds
  | namedTupleClass containsRefs defaults moduleName =>
    if containsRefs then refs (defaults ++ [moduleName]) else []
  | dict d => d.refIds
  | dictKeysView dictId => [dictId]
  | dictItemsView dictId => [dictId]
  | dictValuesView dictId => [dictId]
  | set values => refs values
  | frozenSet values => refs values
  | closure cells defaults globals => cells ++ refs defaults ++ globals.toList
  | functionDefaults defaults globals => refs defaults ++ globals.toList
  | cell value => value.refIds
  -- these four read the entries without looking at the flag
  | hostClass classId attrs => classId :: attrs.entryRefs
  | hostClassType _ attrs => attrs.entryRefs
  | classObject _ attrs => attrs.entryRefs
  | instanceObject _ classId attrs => classId :: attrs.entryRefs
  | boundMethod receiver func => receiver.refIds ++ func.refIds
  | dataclassField annotationValue default defaultFactory =>
    refs ([annotationValue, default, defaultFactory].filterMap id)
  | dataclassMethod fields => refs (fields.filterMap FieldInit.value)
  | listIterator source => [source]
  | dequeIterator source => [source]
  | tupleIterator source => [source]
  | stringIterator source => source.toList
  | bytesIterator source => source.toList
  | dictKeyIterator source => [source]
  | dictItemIterator source => [source]
  | dictValueIterator source => [source]
  | setIterator source => [source]
  | callableIterator callable sentinel => callable.refIds ++ sentinel.refIds
  | dirScan scan => scan.refIds
  | itertools iter => iter.forEachChildId
  | csv object => object.forEachChildId
  | partialObject func args keywords =>
    refs (func :: args ++ keywords.flatMap fun kv => [kv.1, kv.2])
  | genericAlias args => args.refIds
  | union args => args.refIds
  | forwardRef arg moduleName owner globals => refs [arg, moduleName, owner] ++ globals.toList
  | lruCache func cache => refs func.toList ++ cache.flatMap fun kv => kv.1.refIds ++ kv.2.refIds
  -- the flag is looked at, the factory is not
  | moduleObject attrs fileNamespace =>
    fileNamespace.toList ++ if attrs.containsRefs then attrs.entryRefs else []
  | coroutine locals globals => refs locals ++ globals.toList
  | gatherFuture items state => items ++ state.refIds
  | externalFuture sleepResult state => refs sleepResult.toList ++ state.refIds
  | dateTime tzinfo => tzinfo.toList
  | time tzinfo => tzinfo.toList
  | openFile buffer => buffer.toList
  | reMatch subject => subject.refIds
  | extFunction _ => []
  | decimalSignalDict context => [context]
  | decimalContextManager localContext saved => localContext :: saved.toList
  | exception cause context => cause.toList ++ context.toList

/-- The references of a payload, as freeing its entry pushes them. -/
def pyDecRefIds : HeapData → List HeapId
  | leaf _ => []
  | list items => items.refIds
  | deque items => items.refIds
  | tuple items => items.refIds
  | namedTuple classId items => classId.toList ++ items.refIds
  | namedTupleClass containsRefs defaults moduleName =>
    if containsRefs then refs (defaults ++ [moduleName]) else []
  | dict d => d.refIds
  | dictKeysView dictId => [dictId]
  | dictItemsView dictId => [dictId]
  | dictValuesView dictId => [dictId]
  | set values => refs values
  | frozenSet values => refs values
  | closure cells defaults globals => cells ++ refs defaults ++ globals.toList
  | functionDefaults defaults globals => refs defaults ++ globals.toList
  | cell value => value.refIds
  | hostClass classId attrs => classId :: attrs.refIds
  | hostClassType _ attrs => attrs.refIds
  | classObject _ attrs => attrs.refIds
  | instanceObject _ classId attrs => classId :: attrs.refIds
  | boundMethod receiver func => receiver.refIds ++ func.refIds
  | dataclassField annotationValue default defaultFactory =>
    refs ([annotationValue, default, defaultFactory].filterMap id)
  | dataclassMethod fields => fields.flatMap fun field => refs field.value.toList
  | listIterator source => [source]
  | dequeIterator source => [source]
  | tupleIterator source => [source]
  | stringIterator source => source.toList
  | bytesIterator source => source.toList
  | dictKeyIterator source => [source]
  | dictItemIterator source => [source]
  | dictValueIterator source => [source]
  | setIterator source => [source]
  | callableIterator callable sentinel => callable.refIds ++ sentinel.refIds
  | dirScan scan => scan.refIds
  | itertools iter => iter.pyDecRefIds
  | csv object => object.pyDecRefIds
  | partialObject func args keywords =>
    func.refIds ++ refs args ++ keywords.flatMap fun kv => kv.1.refIds ++ kv.2.refIds
  | genericAlias args => args.refIds
  | union args => args.refIds
  | forwardRef arg moduleName owner globals =>
    arg.refIds ++ moduleName.refIds ++ owner.refIds ++ globals.toList
  | lruCache func cache => refs func.toList ++ cache.flatMap fun kv => kv.1.refIds ++ kv.2.refIds
  -- the other order
  | moduleObject attrs fileNamespace => attrs.refIds ++ fileNamespace.toList
  | coroutine locals globals => refs locals ++ globals.toList
  | gatherFuture items state => items ++ state.refIds
  | externalFuture sleepResult state => refs sleepResult.toList ++ state.refIds
  | dateTime tzinfo => tzinfo.toList
  | time tzinfo => tzinfo.toList
  | openFile buffer => buffer.toList
  | reMatch subject => subject.refIds
  | extFunction _ => []
  | decimalSignalDict context => [context]
  | decimalContextManager localContext saved => localContext :: saved.toList
  | exception cause context => cause.toList ++ context.toList

/-- Whether entries of this kind can take part in a reference cycle: leaves cannot, nor can the
kinds whose references lead to leaves only. -/
def isGcTracked : HeapData → Bool
  | leaf _ | exception .. | stringIterator _ | bytesIterator _ | openFile _ | reMatch _
  | extFunction _ | dateTime _ | time _ | decimalSignalDict _ | decimalContextManager .. => false
  | itertools iter => iter.isGcTracked
  | dirScan (.walk ..) => true
  | dirScan _ => false
  | _ => true

def weakIndexKey : HeapData → Option WeakIndexKey
  | extFunction name => some (.extFunction name)
  | instanceObject uuid _ _ => uuid.map .boundary
  | classObject uuid _ => uuid.map .boundary
  | hostClassType typeId _ => some (.hostType typeId)
  | _ => none

/-- **The two walkers agree.** -/
theorem pyDecRefIds_perm (d : HeapData) : d.pyDecRefIds.Perm d.forEachChildId := by
  cases d with
  | hostClass _ attrs | hostClassType _ attrs | classObject _ attrs | instanceObject _ _ attrs =>
    rw [pyDecRefIds, forEachChildId, attrs.refIds_eq]
  | dataclassMethod fields =>
    rw [pyDecRefIds, forEachChildId, refs_filterMap_value]
  | itertools iter => rw [pyDecRefIds, forEachChildId, iter.pyDecRefIds_eq]
  | csv object => rw [pyDecRefIds, forEachChildId, object.pyDecRefIds_eq]
  | partialObject => simp [pyDecRefIds, forEachChildId, refs, List.flatMap_assoc]
  | forwardRef => simp [pyDecRefIds, forEachChildId, refs]
  | moduleObject attrs fileNamespace =>
    rw [pyDecRefIds, forEachChildId, Dict.refIds, attrs.plain]
    exact List.perm_append_comm
  | _ => exact .refl _

instance : HeapItem HeapData where
  forEachChildId := forEachChildId
  pyDecRefIds := pyDecRefIds
  isGcTracked := isGcTracked
  weakIndexKey := weakIndexKey
  pyDecRefIds_perm := pyDecRefIds_perm

end HeapData

end Monty
