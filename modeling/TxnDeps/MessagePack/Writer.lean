import TxnDeps.Bytes

namespace TxnDeps.MessagePack

open Bytes (bigEndian capacity)

def natural (n : Nat) : Bytes :=
  if n < 0x80 then [UInt8.ofNat n]
  else if n < capacity 1 then 0xcc :: bigEndian 1 n
  else if n < capacity 2 then 0xcd :: bigEndian 2 n
  else if n < capacity 4 then 0xce :: bigEndian 4 n
  else 0xcf :: bigEndian 8 n

/-- A negative number is written by its distance from the power of 256 above it. -/
def integer (v : Int) : Bytes :=
  if 0 ≤ v then natural v.toNat
  else if -32 ≤ v then bigEndian 1 (v + capacity 1).toNat
  else if -0x80 ≤ v then 0xd0 :: bigEndian 1 (v + capacity 1).toNat
  else if -0x8000 ≤ v then 0xd1 :: bigEndian 2 (v + capacity 2).toNat
  else if -0x80000000 ≤ v then 0xd2 :: bigEndian 4 (v + capacity 4).toNat
  else 0xd3 :: bigEndian 8 (v + capacity 8).toNat

def nil : Bytes := [0xc0]

def utf8 (s : String) : Bytes := s.toUTF8.data.toList

def textHead (length : Nat) : Bytes :=
  if length < 32 then [UInt8.ofNat (0xa0 + length)]
  else if length < capacity 1 then 0xd9 :: bigEndian 1 length
  else if length < capacity 2 then 0xda :: bigEndian 2 length
  else 0xdb :: bigEndian 4 length

def text (s : String) : Bytes := textHead (utf8 s).length ++ utf8 s

def binaryHead (length : Nat) : Bytes :=
  if length < capacity 1 then 0xc4 :: bigEndian 1 length
  else if length < capacity 2 then 0xc5 :: bigEndian 2 length
  else 0xc6 :: bigEndian 4 length

def binary (bytes : Bytes) : Bytes := binaryHead bytes.length ++ bytes

def arrayHead (length : Nat) : Bytes :=
  if length < 16 then [UInt8.ofNat (0x90 + length)]
  else if length < capacity 2 then 0xdc :: bigEndian 2 length
  else 0xdd :: bigEndian 4 length

def array (items : List Bytes) : Bytes := arrayHead items.length ++ items.flatten

def tagged (name : String) (value : Bytes) : Bytes := 0x81 :: (text name ++ value)

end TxnDeps.MessagePack
