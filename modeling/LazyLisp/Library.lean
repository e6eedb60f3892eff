/-!
The part of the language that is written in the language itself. Its files are loaded into the
namespace `core` before `user` is made.
-/

namespace LazyLisp.Library
set_option autoImplicit false

structure File where
  name : String
  source : String

/-- Control flow, predicates, and functions of functions. -/
def core : File where
  name := "stdlib/core.clj"
  source := r#"(defmacro defn
  "Define a named function; the body is anything `fn` accepts."
  [name & body]
  `(def ~name (fn ~name ~@body)))

(defn not [x] (if x false true))

(defn identity [x] x)

(defn second [coll] (first (next coll)))

(defn not= [& args] (not (apply = args)))

(defmacro when [test & body]
  `(if ~test (do ~@body)))

(defmacro when-not [test & body]
  `(if ~test nil (do ~@body)))

(defmacro if-not
  ([test then] `(if ~test nil ~then))
  ([test then else] `(if ~test ~else ~then)))

(defmacro cond [& clauses]
  (when clauses
    (list 'if (first clauses)
          (second clauses)
          (cons 'cond (next (next clauses))))))

(defmacro and [& xs]
  (if xs
    (if (next xs)
      `(let [and# ~(first xs)]
         (if and# (and ~@(next xs)) and#))
      (first xs))
    true))

(defmacro or [& xs]
  (when xs
    (if (next xs)
      `(let [or# ~(first xs)]
         (if or# or# (or ~@(next xs))))
      (first xs))))

(defmacro -> [x & forms]
  (if forms
    (let [form (first forms)
          threaded (if (seq? form)
                     `(~(first form) ~x ~@(next form))
                     (list form x))]
      `(-> ~threaded ~@(next forms)))
    x))

(defmacro ->> [x & forms]
  (if forms
    (let [form (first forms)
          threaded (if (seq? form)
                     `(~@form ~x)
                     (list form x))]
      `(->> ~threaded ~@(next forms)))
    x))

(defmacro lazy-seq [& body]
  `(lazy-seq* (fn [] ~@body)))

(defn zero? [n] (== n 0))

(defn pos? [n] (> n 0))

(defn neg? [n] (< n 0))

(defn even? [n] (== (rem n 2) 0))

(defn odd? [n] (not (even? n)))

(defn empty? [coll] (not (seq coll)))

(defn comp
  ([] identity)
  ([f] f)
  ([f g & fs]
   (let [fg (fn [& args] (f (apply g args)))]
     (if fs
       (apply comp fg fs)
       fg))))

(defn partial [f & bound]
  (fn [& args] (apply f (concat bound args))))
"#

/-- Sequences. `map`, `filter`, `take`, `iterate`, `repeat` and `range` are lazy. -/
def sequences : File where
  name := "stdlib/seq.clj"
  source := r#"(defn map [f coll]
  (lazy-seq
    (when (seq coll)
      (cons (f (first coll)) (map f (rest coll))))))

(defn filter [pred coll]
  (lazy-seq
    (when (seq coll)
      (let [x (first coll)]
        (if (pred x)
          (cons x (filter pred (rest coll)))
          (filter pred (rest coll)))))))

(defn take [n coll]
  (lazy-seq
    (when (pos? n)
      (when (seq coll)
        (cons (first coll) (take (dec n) (rest coll)))))))

(defn drop [n coll]
  (loop [n n
         s (seq coll)]
    (if (and (pos? n) s)
      (recur (dec n) (next s))
      (or s ()))))

(defn iterate [f x]
  (lazy-seq (cons x (iterate f (f x)))))

(defn repeat
  ([x] (lazy-seq (cons x (repeat x))))
  ([n x] (take n (repeat x))))

(defn range
  ([] (iterate inc 0))
  ([end] (range 0 end 1))
  ([start end] (range start end 1))
  ([start end step]
   (lazy-seq
     (when (if (pos? step) (< start end) (> start end))
       (cons start (range (+ start step) end step))))))

(defn reverse [coll]
  (reduce (fn [acc x] (cons x acc)) () coll))

(defn into [to from]
  (reduce conj to from))

(defn last [coll]
  (loop [s (seq coll)]
    (if (next s)
      (recur (next s))
      (first s))))
"#

/-- The files in the order in which they load. -/
def files : List File := [core, sequences]

end LazyLisp.Library
