import BtcRelay.Foundations.BigEndian

/-!
# SHA-256

The hash function on byte strings, with words as natural numbers below `2 ^ 32`. It is
written with the functions of `Nat` that the kernel computes natively, so that hashes of
concrete messages can be decided. A word is doubled before it is shifted: the shifts of
the double, cut to 32 bits, are the rotations of the word.
-/

namespace Sha256

/-- The working variables of a round. -/
structure State where
  a : ℕ
  b : ℕ
  c : ℕ
  d : ℕ
  e : ℕ
  f : ℕ
  g : ℕ
  h : ℕ

def cut (number : ℕ) : ℕ := Nat.mod number 0x100000000

def cut512 (number : ℕ) : ℕ := Nat.mod number (Nat.pow 2 512)

def double (word : ℕ) : ℕ := Nat.mul word 0x100000001

def xor3 (x y z : ℕ) : ℕ := Nat.xor (Nat.xor x y) z

def bigSigma0 (double : ℕ) : ℕ :=
  cut (xor3 (Nat.shiftRight double 2) (Nat.shiftRight double 13) (Nat.shiftRight double 22))

def bigSigma1 (double : ℕ) : ℕ :=
  cut (xor3 (Nat.shiftRight double 6) (Nat.shiftRight double 11) (Nat.shiftRight double 25))

def smallSigma0 (word double : ℕ) : ℕ :=
  cut (xor3 (Nat.shiftRight double 7) (Nat.shiftRight double 18) (Nat.shiftRight word 3))

def smallSigma1 (word double : ℕ) : ℕ :=
  cut (xor3 (Nat.shiftRight double 17) (Nat.shiftRight double 19) (Nat.shiftRight word 10))

/-- The bits of `y` where `x` has a one, and those of `z` elsewhere. -/
def choose (x y z : ℕ) : ℕ := Nat.xor z (Nat.land x (Nat.xor y z))

def majority (x y z : ℕ) : ℕ := Nat.lor (Nat.land x y) (Nat.land z (Nat.lor x y))

def constants : List ℕ :=
  [0x428a2f98, 0x71374491, 0xb5c0fbcf, 0xe9b5dba5, 0x3956c25b, 0x59f111f1, 0x923f82a4, 0xab1c5ed5,
    0xd807aa98, 0x12835b01, 0x243185be, 0x550c7dc3, 0x72be5d74, 0x80deb1fe, 0x9bdc06a7, 0xc19bf174,
    0xe49b69c1, 0xefbe4786, 0x0fc19dc6, 0x240ca1cc, 0x2de92c6f, 0x4a7484aa, 0x5cb0a9dc, 0x76f988da,
    0x983e5152, 0xa831c66d, 0xb00327c8, 0xbf597fc7, 0xc6e00bf3, 0xd5a79147, 0x06ca6351, 0x14292967,
    0x27b70a85, 0x2e1b2138, 0x4d2c6dfc, 0x53380d13, 0x650a7354, 0x766a0abb, 0x81c2c92e, 0x92722c85,
    0xa2bfe8a1, 0xa81a664b, 0xc24b8b70, 0xc76c51a3, 0xd192e819, 0xd6990624, 0xf40e3585, 0x106aa070,
    0x19a4c116, 0x1e376c08, 0x2748774c, 0x34b0bcb5, 0x391c0cb3, 0x4ed8aa4a, 0x5b9cca4f, 0x682e6ff3,
    0x748f82ee, 0x78a5636f, 0x84c87814, 0x8cc70208, 0x90befffa, 0xa4506ceb, 0xbef9a3f7, 0xc67178f2]

def initial : State :=
  ⟨0x6a09e667, 0xbb67ae85, 0x3c6ef372, 0xa54ff53a, 0x510e527f, 0x9b05688c, 0x1f83d9ab, 0x5be0cd19⟩

/-- The end of a round, with the first temporary word computed. -/
def rotate (t1 a b c d e f g : ℕ) : State :=
  ⟨cut (Nat.add t1 (Nat.add (bigSigma0 (double a)) (majority a b c))), a, b, c, cut (Nat.add d t1),
    e, f, g⟩

def round (constant word : ℕ) : State → State
  | ⟨a, b, c, d, e, f, g, h⟩ =>
      rotate (Nat.add (Nat.add h (bigSigma1 (double e)))
        (Nat.add (choose e f g) (Nat.add constant word))) a b c d e f g

def nextWord (w0 w1 w9 w14 : ℕ) : ℕ :=
  cut (Nat.add (Nat.add (smallSigma1 w14 (double w14)) w9)
    (Nat.add (smallSigma0 w1 (double w1)) w0))

/-- The next sixteen words, as one number like the given ones. -/
def nextWords (words : ℕ) : ℕ :=
  cut512 (Nat.add (Nat.shiftLeft words 32)
    (nextWord (Nat.shiftRight words 480) (cut (Nat.shiftRight words 448))
      (cut (Nat.shiftRight words 192)) (cut (Nat.shiftRight words 32))))

def rounds : List ℕ → State → ℕ → State
  | [], state, _ => state
  | constant :: constants, state, words =>
      rounds constants (round constant (Nat.shiftRight words 480) state) (nextWords words)

def sum (x y : ℕ) : ℕ := cut (Nat.add x y)

def compress (state : State) (words : ℕ) : State :=
  match state, rounds constants state words with
  | ⟨a, b, c, d, e, f, g, h⟩, ⟨a', b', c', d', e', f', g', h'⟩ =>
      ⟨sum a a', sum b b', sum c c', sum d d', sum e e', sum f f', sum g g', sum h h'⟩

def absorb (message : ℕ) : ℕ → State → State
  | 0, state => state
  | blocks + 1, state =>
      absorb message blocks (compress state (cut512 (Nat.shiftRight message (Nat.mul 512 blocks))))

def State.number : State → ℕ
  | ⟨a, b, c, d, e, f, g, h⟩ =>
      [a, b, c, d, e, f, g, h].foldl (fun number word =>
        Nat.add (Nat.mul number 0x100000000) word) 0

/-- The number of bytes after a message of some length: a one bit, zeros up to a multiple of the
block size and the length in bits. -/
def padding (length : ℕ) : ℕ := 9 + (119 - length % 64) % 64

def pad (length message : ℕ) : ℕ :=
  Nat.add (Nat.mul (Nat.add (Nat.mul message 256) 128) (Nat.pow 256 (padding length - 1)))
    (Nat.mul 8 length)

/-- The hash of a message of some length, as a number. -/
def hashNumber (length message : ℕ) : ℕ :=
  (absorb (pad length message) ((length + padding length) / 64) initial).number

def bytesNumber (bytes : List UInt8) : ℕ :=
  bytes.foldl (fun number byte => Nat.add (Nat.mul number 256) byte.toNat) 0

def hash (message : List UInt8) : List.Vector UInt8 32 :=
  BigEndian.ofNat 32 (hashNumber message.length (bytesNumber message))

/-- The number of a message that continues another one. -/
def append (number length next : ℕ) : ℕ := number * 256 ^ length + next

theorem bytesNumber_append (front back : List UInt8) :
    bytesNumber (front ++ back) = append (bytesNumber front) back.length (bytesNumber back) := by
  have shift : ∀ (bytes : List UInt8) (start : ℕ),
      bytes.foldl (fun number byte => Nat.add (Nat.mul number 256) byte.toNat) start =
        start * 256 ^ bytes.length + bytesNumber bytes := by
    intro bytes
    induction bytes with
    | nil => simp [bytesNumber]
    | cons byte rest ih =>
        intro start
        have here : bytesNumber (byte :: rest) = _ := ih (Nat.add (Nat.mul 0 256) byte.toNat)
        rw [here, List.foldl_cons, ih, List.length_cons, Nat.pow_succ]
        simp only [Nat.add_eq, Nat.mul_eq]
        ring
  rw [bytesNumber, List.foldl_append, shift]
  rfl

theorem bytesNumber_toList {n : ℕ} (bytes : List.Vector UInt8 n) :
    bytesNumber bytes.toList = BigEndian.value bytes := by
  induction n with
  | zero =>
      rw [List.Vector.eq_nil bytes]
      rfl
  | succ n ih =>
      obtain ⟨first, rest, rfl⟩ := List.Vector.exists_eq_cons bytes
      rw [List.Vector.toList_cons, ← List.singleton_append, bytesNumber_append, ih,
        BigEndian.value_cons, List.Vector.toList_length]
      simp [append, bytesNumber]

theorem bytesNumber_lt (bytes : List UInt8) : bytesNumber bytes < 256 ^ bytes.length := by
  have number := bytesNumber_toList ⟨bytes, rfl⟩
  have bound := BigEndian.value_lt ⟨bytes, rfl⟩
  rw [← number] at bound
  exact bound

-- the message "abc"
example : hash [0x61, 0x62, 0x63] = BigEndian.ofNat 32
    0xba7816bf8f01cfea414140de5dae2223b00361a396177a9cb410ff61f20015ad := by decide +kernel

end Sha256
