import RegularLanguages.Conversion.Operation
import RegularLanguages.Text.Quoted

/-!
# Caches

A cache keeps a limited number of values of several types by their keys. When it is full, the key
that came first goes first; storing another value under a key does not change its place. A value is
only found by someone who asks for its type.
-/

namespace RegularLanguages

/-- Values of the types `El t` under keys, the first that came in front. -/
structure Cache (κ : Type) {τ : Type} (El : τ → Type) where
  capacity : Nat
  entries : List (κ × Sigma El)

namespace Cache

variable {κ τ : Type} {El : τ → Type}

/-- A cache without entries. -/
def empty (capacity : Nat) : Cache κ El := ⟨capacity, []⟩

/-- The number of entries. -/
def size (cache : Cache κ El) : Nat := cache.entries.length

/-- The keys, the first that came in front. -/
def keys (cache : Cache κ El) : List κ := cache.entries.map (·.1)

/-- The cache without its entries. -/
def clear (cache : Cache κ El) : Cache κ El := { cache with entries := [] }

variable [DecidableEq κ] [DecidableEq τ]

/-- The value under a key, with its type. -/
def find? (cache : Cache κ El) (key : κ) : Option (Sigma El) :=
  (cache.entries.find? fun entry => entry.1 = key).map (·.2)

/-- The value under a key, if it has the type `El t`. -/
def get? (cache : Cache κ El) (t : τ) (key : κ) : Option (El t) :=
  match cache.find? key with
  | some ⟨u, value⟩ => if h : u = t then some (h ▸ value) else none
  | none => none

/-- How many entries have to go before a key can be stored. -/
def evictions (cache : Cache κ El) (key : κ) : Nat :=
  if cache.capacity = 0 ∨ key ∈ cache.keys then 0 else cache.size + 1 - cache.capacity

/-- Stores a value; a cache without capacity stores nothing. -/
def insert (cache : Cache κ El) (key : κ) (t : τ) (value : El t) : Cache κ El :=
  if cache.capacity = 0 then cache
  else if key ∈ cache.keys then
    { cache with entries := cache.entries.map fun entry =>
        if entry.1 = key then (entry.1, ⟨t, value⟩) else entry }
  else
    { cache with entries := cache.entries.drop (cache.evictions key) ++ [(key, ⟨t, value⟩)] }

end Cache

/-- What a cached result was made from; digests of type `δ` stand for sources and for parameters. -/
structure CacheKey (δ : Type) where
  operation : Operation
  sourceKind : Option Kind
  source : δ
  parameters : Option δ
deriving DecidableEq

/-- The name of a kind in descriptions of keys. -/
def Kind.description : Kind → String
  | dfa => "DFA"
  | nfa => "NFA"
  | epsilonNFA => "EpsilonNFA"

/-- The name of a conversion in descriptions of keys. -/
def Operation.description : Operation → String
  | toNFA => "ToNfa"
  | toDFA => "ToDfa"
  | toDFADirect => "ToDfaDirect"
  | minimize => "Minimize"
  | trim => "RemoveUnreachable"
  | complement => "Complement"
  | compile => "CompileRegex"
  | convert kind => "Convert(" ++ kind.description ++ ")"

/-- A value that may be missing, as it is described. -/
def describeOption {α : Type} (describe : α → String) : Option α → String
  | some x => "Some(" ++ describe x ++ ")"
  | none => "None"

/-- A key with numbers as digests on one line. -/
def CacheKey.description (key : CacheKey Nat) : String :=
  Text.record "CacheKey"
    [("operation", key.operation.description),
      ("source_kind", describeOption Kind.description key.sourceKind),
      ("source_hash", key.source.repr),
      ("params", describeOption Nat.repr key.parameters)]

/-- The keys of a cache on one line. -/
def Cache.description {τ : Type} {El : τ → Type} (cache : Cache (CacheKey Nat) El) : String :=
  Text.record "ConversionCache"
    [("capacity", cache.capacity.repr),
      ("keys", Text.bracketed (cache.keys.map CacheKey.description))]

end RegularLanguages
