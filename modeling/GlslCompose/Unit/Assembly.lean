import GlslCompose.Cache
import GlslCompose.Define.Set
import GlslCompose.Error

/-!
# Assembly

An assembly is a computation that may read and extend the cache of compiled
units, and that may fail.  The cache survives a failure with everything that was
done to it before.
-/

namespace GlslCompose

structure UnitKey where
  source : Text
  defines : Option DefineSet
deriving DecidableEq, Repr

abbrev UnitCache := Cache UnitKey

def Assembly (α : Type) : Type := UnitCache → Except ComposeError α × UnitCache

namespace Assembly

variable {α β : Type}

protected def pure (value : α) : Assembly α := fun cache => (.ok value, cache)

protected def bind (first : Assembly α) (next : α → Assembly β) : Assembly β := fun cache =>
  match first cache with
  | (.ok value, cache) => next value cache
  | (.error error, cache) => (.error error, cache)

instance : Monad Assembly where
  pure := Assembly.pure
  bind := Assembly.bind

def fail (error : ComposeError) : Assembly α := fun cache => (.error error, cache)

def lookup (key : UnitKey) : Assembly (Option Text) := fun cache =>
  let (found, cache) := cache.lookup key
  (.ok found, cache)

def store (key : UnitKey) (text : Text) : Assembly Unit := fun cache =>
  (.ok (), cache.insert key text)

@[simp] theorem pure_apply (value : α) (cache : UnitCache) :
    (pure value : Assembly α) cache = (.ok value, cache) := rfl

theorem bind_ok {first : Assembly α} {next : α → Assembly β} {cache after : UnitCache}
    {value : α} (hfirst : first cache = (.ok value, after)) :
    (first >>= next) cache = next value after := by
  change Assembly.bind first next cache = next value after
  simp [Assembly.bind, hfirst]

theorem bind_error {first : Assembly α} {next : α → Assembly β} {cache after : UnitCache}
    {error : ComposeError} (hfirst : first cache = (.error error, after)) :
    (first >>= next) cache = (.error error, after) := by
  change Assembly.bind first next cache = (.error error, after)
  simp [Assembly.bind, hfirst]

end Assembly

end GlslCompose
