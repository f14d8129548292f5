import Code365.Lib.ChainedTable

/-! # The hash table of the lessons (`hash.c` of `exp_2` and of `echo/u_server`)

The two files are the same but for the type of the values.  The table never grows, so it keeps its
100 buckets; `load_factor` is only ever written.  When `make_entry` finds no memory, `hash_set` ends
the process, so a call that returns has set its key. -/

namespace Code365.OsLesson

def MIN_BUCKET_COUNT : ℕ := 100

/-- The loop of `hash`, on 64 bits; a `char` is signed, so the bytes from 128 on are negative. -/
def hash (key : List Char) : ℕ :=
  key.foldl (fun (h : ℕ) c => ((h * 2 ^ 5 + h + Int.bmod c.toNat 256) % 2 ^ 64).toNat) 5381

def bucketOf (key : List Char) : Fin MIN_BUCKET_COUNT :=
  ⟨hash key % MIN_BUCKET_COUNT, Nat.mod_lt _ (by decide)⟩

abbrev Hash (ν : Type) := ChainedTable (List Char) ν bucketOf

variable {ν : Type}

def hashNew : Hash ν := ChainedTable.empty

def hashGet (self : Hash ν) (key : List Char) : Option ν := self.get key

def hashSet (self : Hash ν) (key : List Char) (value : ν) : Hash ν := self.set key value

def hashRemove (self : Hash ν) (key : List Char) : Hash ν := self.remove key

@[simp] theorem hashGet_new (key : List Char) : hashGet (hashNew : Hash ν) key = none := rfl

@[simp] theorem hashGet_set (self : Hash ν) (key key' : List Char) (value : ν) :
    hashGet (hashSet self key value) key' = if key' = key then some value else hashGet self key' :=
  ChainedTable.get_set self key key' value

@[simp] theorem hashGet_remove (self : Hash ν) (key key' : List Char) :
    hashGet (hashRemove self key) key' = if key' = key then none else hashGet self key' :=
  ChainedTable.get_remove self key key'

end Code365.OsLesson
