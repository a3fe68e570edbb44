/-!
# Prices

What an instruction costs, by its opcode, and what the services of the host cost. Opcodes without a
price, and those that begin a longer opcode, are free.
-/

namespace MeteredWasm.Gas

/-! ## §1 Instructions -/

/-- The price of an integer operation, by its place among the operations of its width. -/
def integerPrice (bitCount rank : Nat) : Nat :=
  if rank ≤ 2 then bitCount
  else if rank ≤ 4 then 1
  else if rank = 5 then 3
  else if rank ≤ 9 then 80
  else if rank ≤ 12 then 1
  else 2

/-- The price of a float operation, by its place among the operations of its width. -/
def floatPrice (rank : Nat) : Nat :=
  if rank ≤ 5 then 100
  else if rank = 6 then 2000
  else if rank ≤ 8 then 200
  else if rank = 9 then 400
  else if rank = 10 then 1000
  else 100

/-- The price of the instruction with a given opcode. -/
def price (opcode : UInt8) : Nat :=
  let op := opcode.toNat
  if op = 0x01 then 1
  else if op = 0x05 then 2
  else if op = 0x0C then 2
  else if op = 0x0D then 3
  else if op = 0x0E then 2
  else if op = 0x0F then 2
  else if op = 0x10 then 2
  else if op = 0x11 then 10
  else if op < 0x1A then 0
  else if op ≤ 0x1B then 3
  else if op < 0x20 then 0
  else if op ≤ 0x24 then 3
  else if op < 0x28 then 0
  else if op ≤ 0x3E then 3
  else if op = 0x3F then 100
  else if op = 0x40 then 1000
  else if op < 0x45 then 0
  else if op ≤ 0x5A then 1
  else if op ≤ 0x66 then 100
  else if op ≤ 0x78 then integerPrice 105 (op - 0x67)
  else if op ≤ 0x8A then integerPrice 150 (op - 0x79)
  else if op ≤ 0x98 then floatPrice (op - 0x8B)
  else if op ≤ 0xA6 then floatPrice (op - 0x99)
  else if op = 0xA7 then 3
  else if op ≤ 0xAB then 100
  else if op ≤ 0xAD then 3
  else if op ≤ 0xBF then 100
  else if op ≤ 0xC4 then 3
  else 0

/-! ## §2 Services of the host -/

/-- The overhead of a call to the host. -/
def callBase : Nat := 100

/-- Recovering a public key. -/
def recoverKey : Nat := 450000

/-- Starting a digest. -/
def sha256Base : Nat := 2400

/-- Each byte of a digest's input. -/
def sha256Byte : Nat := 3

/-- A log entry, by its number of topics. -/
def logBase (topics : Nat) : Nat := 70000 + 10000 * topics

/-- Each byte of a log entry. -/
def logByte : Nat := 1000

/-- Each byte that is copied, compared or filled. -/
def memoryByte : Nat := 3

/-- A transfer of value. -/
def transfer : Nat := 1000000

/-- Starting to store a value. -/
def storeBase : Nat := 1000000

/-- Each byte of a stored value. -/
def storeByte : Nat := 100000

/-- Starting to load a value. -/
def loadBase : Nat := 1000000

/-- Each byte of a load's buffer. -/
def loadByte : Nat := 100000

/-- Asking whether a key or a table exists. -/
def query : Nat := 500000

/-- Removing a key or a table. -/
def remove : Nat := 500000

end MeteredWasm.Gas
